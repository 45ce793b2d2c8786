import Goblet.Stream.Declaration

/-!
# Shaping statements

Control structures become labels and jumps, and the scope of a block stands between `enter` and `leave`.
-/

namespace Goblet

/-- What a statement leaves for the result of a chunk. -/
inductive Outcome where
  | expr
  /-- An assignment, with its last target. -/
  | assign (name : Option String)
  | other

namespace Shape

/-! ## Assignments and expression statements -/

def readable (name : String) : Option String := if name = "_" then none else some name

/-- The names of the fields of a path such as `.a.b`. -/
def fieldPath? : List Token → Option (List String)
  | [.atom .dot _, .atom (.ident n) _] => some [n]
  | .atom .dot _ :: .atom (.ident n) _ :: ts => (fieldPath? ts).map (n :: ·)
  | _ => none

def stored (inside : Inside) (c : Place) (value : List Token) (op : Option Operator) (p : Pos) :
    Shape (List Step) := do
  let steps ← exprWith inside c value
  match op with
  | some op => return steps ++ [⟨.binary op, p⟩]
  | none => return steps

def whenCombining (op : Option Operator) (m : Shape (List Step)) : Shape (List Step) :=
  match op with
  | some _ => m
  | none => return []

def assignDeref (inside : Inside) (c : Place) (pointer value : List Token) (op : Option Operator) (p : Pos) :
    Shape (List Step) := do
  let target ← exprWith inside c pointer
  let current ← whenCombining op do return (← exprWith inside c pointer) ++ [⟨.unary .mul, p⟩]
  let value ← stored inside c value op p
  return target ++ current ++ value ++ [⟨.derefAssign, p⟩]

def assignIndex (inside : Inside) (c : Place) (base index value : List Token) (op : Option Operator) (p : Pos) :
    Shape (List Step) := do
  let index := Token.withoutSemicolons index
  let element : Shape (List Step) := do
    let b ← exprWith inside c base
    let i ← exprWith inside c index
    return b ++ i
  let target ← element
  let current ← whenCombining op do return (← element) ++ [⟨.index, p⟩]
  let value ← stored inside c value op p
  return target ++ current ++ value ++ [⟨.indexAssign, p⟩]

def assignField (inside : Inside) (c : Place) (base : String) (path : List String) (value : List Token)
    (op : Option Operator) (p : Pos) : Shape (List Step) := do
  let current ← whenCombining op do return ⟨.ident base, p⟩ :: path.map fun f => ⟨.field f, p⟩
  let value ← stored inside c value op p
  return ⟨.place base, p⟩ :: current ++ value ++ [⟨.fieldAssign path, p⟩]

/-- The base and the index of a target that ends in square brackets without a colon. -/
def elementTarget? (target : List Token) : Option (List Token × List Token) :=
  match target.getLast? with
  | some (.group .bracket index _) =>
    if target.dropLast.isEmpty || index.any (·.is .colon) then none else some (target.dropLast, index)
  | _ => none

/-- Stores a value into one target, combined with what is there if there is an operator. -/
def assignTarget (inside : Inside) (c : Place) (target value : List Token) (op : Option Operator) (p : Pos) :
    Shape (Outcome × List Step) :=
  match target with
  | [] => fail .targetMissing p
  | [.atom (.ident name) _] => do
    let current ← whenCombining op do return [⟨.ident name, p⟩]
    let value ← stored inside c value op p
    return (.assign (readable name), current ++ value ++ [⟨.ident name, p⟩, ⟨.assign, p⟩])
  | .atom (.op .mul) _ :: pointer => do return (.other, ← assignDeref inside c pointer value op p)
  | target =>
    match elementTarget? target with
    | some (base, index) => do return (.other, ← assignIndex inside c base index value op p)
    | none =>
      match target with
      | .atom (.ident base) _ :: rest =>
        match fieldPath? rest with
        | some path => do return (.other, ← assignField inside c base path value op p)
        | none => fail .notAssignable p
      | _ => fail .notAssignable p

def targetName? : List Token → Option String
  | [.atom (.ident n) _] => some n
  | _ => none

/-- `:=` and `=` with any number of targets. -/
def assignAll (inside : Inside) (c : Place) (left right : List Token) (op : Operator) (p : Pos) :
    Shape (Outcome × List Step) := do
  let targets := Token.commaList left
  let values := Token.commaList right
  if values.isEmpty || targets.isEmpty then fail .assignOperands p
  else
    match targets.mapM targetName? with
    | some names =>
      if values.length ≠ names.length ∧ values.length ≠ 1 then fail (.countMismatch names.length values.length) p
      else
        let steps ← exprs inside c values
        let store : Act := if op = .define then .define else .assign
        let stores : List Step := names.reverse.flatMap fun n => [⟨.ident n, p⟩, ⟨store, p⟩]
        return (.assign (names.getLast?.bind readable), steps ++ stores)
    | none =>
      if op = .define then fail .defineNonName p
      else if targets.length > 1 ∨ values.length > 1 then fail .multipleTargets p
      else assignTarget inside c left right none p

/-- The tokens before the first assignment operator, the operator, and the tokens after it. -/
def splitAssignment? : List Token → Option (List Token × Operator × Pos × List Token)
  | [] => none
  | .atom (.op op) p :: ts =>
    if op.isAssignment then some ([], op, p, ts)
    else (splitAssignment? ts).map fun (l, r) => (.atom (.op op) p :: l, r)
  | t :: ts => (splitAssignment? ts).map fun (l, r) => (t :: l, r)

def simpleStatement (inside : Inside) (c : Place) (toks : List Token) : Shape (Outcome × List Step) :=
  match toks with
  | [] => failAt .emptyInit []
  | t :: _ =>
    match splitAssignment? toks with
    | none => do
      let steps ← exprWith inside c toks
      return (.expr, ⟨.mark, t.pos⟩ :: steps ++ [⟨.discard, ← last⟩])
    | some (left, op, p, right) =>
      match op with
      | .inc | .dec =>
        match right with
        | r :: _ => fail .afterStep r.pos
        | [] => assignTarget inside c left [.atom (.int 1) p] op.compoundBase? p
      | .assign | .define => assignAll inside c left right op p
      | _ =>
        if (Token.commaList left).length ≠ 1 ∨ (Token.commaList right).length ≠ 1 then fail (.compoundOperands op) p
        else assignTarget inside c left right op.compoundBase? p

def optionalSimple (inside : Inside) (c : Place) (toks : List Token) : Shape (List Step) := do
  if toks.isEmpty then return [] else return (← simpleStatement inside c toks).2

/-! ## Blocks and control structures -/

def block (inside : Inside) (c : Place) (toks : List Token) (p : Pos) : Shape (List Step) := do
  let scope ← fresh c "b"
  let steps ← inside.body (c.within scope) toks
  return ⟨.enter scope, p⟩ :: steps ++ [⟨.leave, ← last⟩]

/-- Whether braces behind these two tokens are a literal: they follow `struct`, or a name behind square brackets. -/
def opensLiteral : Option Token → Option Token → Bool
  | _, some (.atom (.keyword .struct) _) => true
  | some (.group .bracket _ _), some (.atom (.ident _) _) => true
  | _, _ => false

/-- The header of a control structure, its body and the place of that, and what follows. The body is the first group
in braces that is no literal; the first two arguments are the tokens just before. -/
def splitBody (before prev : Option Token) : List Token → Option (List Token × List Token × Pos × List Token)
  | [] => none
  | t :: ts =>
    match t, opensLiteral before prev with
    | .group .brace inner p, false => some ([], inner, p, ts)
    | t, _ => (splitBody prev (some t) ts).map fun (header, r) => (t :: header, r)

/-- The parts of a control structure with a keyword at `p`. -/
def bodyOf (p : Pos) (toks : List Token) : Shape (List Token × List Token × Pos × List Token) :=
  match splitBody none none toks with
  | some r => return r
  | none => fail .bodyExpected p

/-- The header of an `if`: what comes before the condition, and the condition. -/
def ifHeader (p : Pos) (header : List Token) : Shape (Option (List Token) × List Token) :=
  match Token.clauses header with
  | [cond] => if cond.isEmpty then fail .missingCondition p else return (none, cond)
  | [init, cond] => if cond.isEmpty then fail .missingCondition p else return (some init, cond)
  | _ => fail (.malformedHeader .if) p

/-- What stands before the condition of an `if`. -/
def initSteps (inside : Inside) (c : Place) : Option (List Token) → Shape (List Step)
  | some init => do return (← simpleStatement inside c init).2
  | none => return []

/-- What stands behind an `else`, a block or another `if` that `again` shapes, and the tokens that follow. -/
def elseBranch (inside : Inside) (c : Place) (again : Pos → List Token → Shape (List Step × List Token)) :
    List Token → Shape (List Step × List Token)
  | .atom (.keyword .if) r :: rest => again r rest
  | .group .brace inner r :: rest => do return (← block inside c inner r, rest)
  | rest => failAt .afterElse rest

/-- An `if` whose keyword stands at `p`, with the branches behind it, and the tokens that follow. There are at most
`n` branches. -/
def ifFrom (inside : Inside) : (n : Nat) → Place → Pos → List Token → Shape (List Step × List Token)
  | 0, _, p, _ => fail .tooDeep p
  | n + 1, c, p, toks => do
    let (header, body, bodyPos, rest) ← bodyOf p toks
    let (init, cond) ← ifHeader p header
    let scope ← fresh c "b"
    let c := c.within scope
    let elseLabel ← fresh c "else"
    let start ← initSteps inside c init
    let test ← exprWith inside c cond
    let yes ← block inside c body bodyPos
    let front : List Step := ⟨.enter scope, p⟩ :: start ++ test ++ [⟨.jumpFalse elseLabel, p⟩] ++ yes
    match rest with
    | .atom (.keyword .else) q :: rest =>
      let endLabel ← fresh c "end"
      let (no, rest) ← elseBranch inside c (ifFrom inside n c) rest
      let close ← last
      return (front ++ [⟨.goto endLabel, q⟩, ⟨.label elseLabel, q⟩] ++ no
        ++ [⟨.label endLabel, close⟩, ⟨.leave, close⟩], rest)
    | rest =>
      let close ← last
      return (front ++ [⟨.label elseLabel, close⟩, ⟨.leave, close⟩], rest)

/-- The header of a loop that is no range: what comes before, the condition, and what follows each turn. -/
def loopHeader (p : Pos) (header : List Token) : Shape (List Token × List Token × List Token) :=
  match Token.clauses header with
  | [cond] => return ([], cond, [])
  | [init, cond, post] => return (init, cond, post)
  | _ => fail (.malformedHeader .for) p

/-- The test of a loop, which goes on for ever without a condition. -/
def loopTest (inside : Inside) (c : Place) (cond : List Token) (endLabel : String) (p : Pos) : Shape (List Step) := do
  if cond.isEmpty then return [] else return (← exprWith inside c cond) ++ [⟨.jumpFalse endLabel, p⟩]

def countedLoop (inside : Inside) (c : Place) (p : Pos) (header body : List Token) (bodyPos : Pos) :
    Shape (List Step) := do
  let (init, cond, post) ← loopHeader p header
  let condLabel ← fresh c "cond"
  let contLabel ← fresh c "cont"
  let endLabel ← fresh c "end"
  let start ← optionalSimple inside c init
  let test ← loopTest inside c cond endLabel p
  let inner ← block inside (c.loop endLabel contLabel) body bodyPos
  let cont ← last
  if post.any (·.is (.op .define)) then failAt .declareInPost post
  else
    let step ← optionalSimple inside c post
    let close ← last
    return start ++ [⟨.label condLabel, p⟩] ++ test ++ inner ++ [⟨.label contLabel, cont⟩] ++ step
      ++ [⟨.goto condLabel, close⟩, ⟨.label endLabel, close⟩]

/-- Whether the token before `range` declares the names before it. -/
def rangeDefines : Token → Shape Bool
  | .atom (.op .define) _ => return true
  | .atom (.op .assign) _ => return false
  | t => fail .beforeRange t.pos

/-- The names before `range`, and whether they are declared there. -/
def rangeNames (p : Pos) (left : List Token) : Shape (List String × Bool) := do
  match left.getLast? with
  | none => return ([], false)
  | some t =>
    let define ← rangeDefines t
    match (Token.commaList left.dropLast).mapM targetName? with
    | some names => return (names, define)
    | none => fail .rangeNames p

/-- A loop over a range, with `range` at `p` between `left` and `right`. -/
def rangeLoop (inside : Inside) (c : Place) (p : Pos) (left right body : List Token) (bodyPos : Pos) :
    Shape (List Step) := do
  let (names, define) ← rangeNames p left
  if names.length > 2 then fail .rangeCount p
  else
    let ranged ← exprWith inside c right
    let nextLabel ← fresh c "next"
    let endLabel ← fresh c "end"
    let inner ← block inside (c.loop endLabel nextLabel) body bodyPos
    let close ← last
    return ranged ++ [⟨.range, p⟩, ⟨.label nextLabel, p⟩,
        ⟨.next endLabel (names[0]?.bind readable) (names[1]?.bind readable) define, p⟩]
      ++ inner ++ [⟨.goto nextLabel, close⟩, ⟨.label endLabel, close⟩, ⟨.drop, close⟩]

/-- The tokens before the first `range`, its place, and the tokens after it. -/
def splitRange? : List Token → Option (List Token × Pos × List Token)
  | [] => none
  | .atom (.keyword .range) p :: ts => some ([], p, ts)
  | t :: ts => (splitRange? ts).map fun (l, r) => (t :: l, r)

def loopSteps (inside : Inside) (c : Place) (p : Pos) (header body : List Token) (bodyPos : Pos) :
    Shape (List Step) :=
  match splitRange? header with
  | some (left, q, right) => rangeLoop inside c q left right body bodyPos
  | none => countedLoop inside c p header body bodyPos

/-- A loop whose keyword stands at `p`, and the tokens that follow. -/
def forLoop (inside : Inside) (c : Place) (p : Pos) (toks : List Token) : Shape (List Step × List Token) := do
  let (header, body, bodyPos, rest) ← bodyOf p toks
  let scope ← fresh c "b"
  let steps ← loopSteps inside (c.within scope) p header body bodyPos
  return (⟨.enter scope, p⟩ :: steps ++ [⟨.leave, ← last⟩], rest)

/-! ## Switches -/

/-- A clause of a switch. -/
structure Clause where
  pos : Pos
  /-- The expressions of a case; none for the default. -/
  cases : Option (List (List Token))
  body : List Token

def beginsClause (t : Token) : Bool := t.is (.keyword .case) || t.is (.keyword .default)

/-- The clauses of a switch. The first `skip` tokens are already done; `done` are the clauses so far, the last one
first. -/
def clausesFrom (last : Pos) :
    (toks : List Token) → (skip : Nat) → (done : List Clause) → Except ParseError (List Clause)
  | [], _, done => .ok done.reverse
  | _ :: ts, skip + 1, done => clausesFrom last ts skip done
  | .atom .semicolon _ :: ts, 0, done => clausesFrom last ts 0 done
  | .atom (.keyword .case) p :: ts, 0, done =>
    match ts.findIdx? (·.is .colon) with
    | none => .error ⟨.caseColon, p⟩
    | some i =>
      match Token.commaList (ts.take i) with
      | [] => .error ⟨.caseMissing, p⟩
      | cases => clausesFrom last ts (i + 1) (⟨p, some cases, []⟩ :: done)
  | .atom (.keyword .default) p :: ts, 0, done =>
    match ts with
    | .atom .colon _ :: _ => clausesFrom last ts 1 (⟨p, none, []⟩ :: done)
    | ts => .error ⟨.defaultColon, Token.posOr last ts⟩
  | t :: ts, 0, done =>
    match done with
    | [] => .error ⟨.outsideCase, t.pos⟩
    | clause :: done =>
      let body := ts.takeWhile (!beginsClause ·)
      clausesFrom last ts body.length ({ clause with body := clause.body ++ t :: body } :: done)

/-- The tests of one case: each expression compared with the tag, if there is one, and a jump to the label. -/
def caseTests (inside : Inside) (c : Place) (tag : Option String) (label : String) (p : Pos) :
    List (List Token) → Shape (List Step)
  | [] => return []
  | e :: es => do
    let test ← inside.expr c e
    let test : List Step := match tag with
      | some name => ⟨.ident name, p⟩ :: test ++ [⟨.binary .eql, p⟩]
      | none => test
    return test ++ [⟨.jumpTrue label, p⟩] ++ (← caseTests inside c tag label p es)

def switchTests (inside : Inside) (c : Place) (tag : Option String) :
    List Clause → (default : Option String) → Shape (List Step × List String × Option String)
  | [], default => return ([], [], default)
  | clause :: rest, default => do
    let label ← fresh c "case"
    match clause.cases with
    | none =>
      match default with
      | some _ => fail .defaults clause.pos
      | none =>
        let (steps, labels, default) ← switchTests inside c tag rest (some label)
        return (steps, label :: labels, default)
    | some es =>
      let tests ← caseTests inside c tag label clause.pos es
      let (steps, labels, default) ← switchTests inside c tag rest default
      return (tests ++ steps, label :: labels, default)

def switchBodies (inside : Inside) (c : Place) (endLabel : String) : List (Clause × String) → Shape (List Step)
  | [] => return []
  | (clause, label) :: rest => do
    let body ← block inside c clause.body clause.pos
    let close ← last
    return ⟨.label label, clause.pos⟩ :: body ++ [⟨.goto endLabel, close⟩] ++ (← switchBodies inside c endLabel rest)

/-- The header of a switch: what comes before the tag, and the tag. -/
def switchHeader (p : Pos) (header : List Token) : Shape (List Token × List Token) :=
  match Token.clauses header with
  | [tag] => return ([], tag)
  | [init, tag] => return (init, tag)
  | _ => fail (.malformedHeader .switch) p

/-- The variable that keeps the tag of a switch, if there is a tag, and the steps that store it. -/
def switchTag (inside : Inside) (c : Place) (tag : List Token) (p : Pos) : Shape (Option String × List Step) := do
  if tag.isEmpty then return (none, [])
  else
    let name ← freshName "tag"
    let steps ← exprWith inside c tag
    return (some name, steps ++ [⟨.ident name, p⟩, ⟨.define, p⟩])

/-- A switch whose keyword stands at `p`, and the tokens that follow. -/
def switch (inside : Inside) (c : Place) (p : Pos) (toks : List Token) : Shape (List Step × List Token) := do
  let (header, body, _, rest) ← bodyOf p toks
  let (init, tag) ← switchHeader p header
  let scope ← fresh c "b"
  let c := c.within scope
  let start ← optionalSimple inside c init
  let (tagName, tagSteps) ← switchTag inside c tag p
  let clauses ← lift fun last => clausesFrom last body 0 []
  let endLabel ← fresh c "end"
  let (tests, labels, default) ← switchTests inside c tagName clauses none
  let bodies ← switchBodies inside { c with brk := some endLabel } endLabel (clauses.zip labels)
  let close ← last
  return (⟨.enter scope, p⟩ :: start ++ tagSteps ++ tests ++ [⟨.goto (default.getD endLabel), p⟩] ++ bodies
    ++ [⟨.label endLabel, close⟩, ⟨.leave, close⟩], rest)

/-! ## Jumps and returns -/

/-- `return` at `p` with what follows it on the line. -/
def returnStatement (inside : Inside) (c : Place) (p : Pos) (toks : List Token) : Shape (List Step) := do
  match c.func with
  | none => fail .returnOutside p
  | some f =>
    match Token.commaList toks, f.results with
    | [], some names => return names.map (fun n => ⟨.ident n, p⟩) ++ [⟨.ret names.length, p⟩]
    | es, _ => return (← exprs inside c es) ++ [⟨.ret es.length, p⟩]

/-- `break` or `continue` at `p` with what follows it on the line. -/
def jumpStatement (target : Option String) (k : Keyword) (p : Pos) (toks : List Token) : Shape (List Step) :=
  match toks, target with
  | t :: _, _ => fail .labeledJump t.pos
  | [], some label => return [⟨.goto label, p⟩]
  | [], none => fail (.notInLoop k) p

/-! ## Statements -/

/-- One statement with a keyword `k` at `p`; `line` is what follows up to the semicolon. -/
def lineStatement (inside : Inside) (c : Place) (k : Keyword) (p : Pos) (line : List Token) : Shape (List Step) := do
  match k with
  | .func => funcDeclaration inside c p line
  | .var => varSpecs inside c (specs line)
  | .const => declarations c (← constSpecs inside c (specs line) 0 none)
  | .type => declarations c (← typeSpecs (specs line))
  | .import =>
    if c.top then
      hoist (← importSpecs (specs line))
      return []
    else failAt .nestedImport line
  | .package => return []
  | .return => returnStatement inside c p line
  | .break => jumpStatement c.brk k p line
  | .continue => jumpStatement c.cont k p line
  | k => fail (.strayKeyword k) p

/-- The statement a list that begins with `t` begins with; gives the number of tokens taken. -/
def statement (inside : Inside) (c : Place) (t : Token) (ts : List Token) : Shape (Nat × Outcome × List Step) := do
  look t.pos
  let line := ts.takeWhile (!·.is .semicolon)
  let upTo (r : List Step × List Token) : Nat × Outcome × List Step := (ts.length + 1 - r.2.length, .other, r.1)
  match t with
  | .atom (.keyword k) p =>
    match k with
    | .if => return upTo (← ifFrom inside (ts.length + 1) c p ts)
    | .for => return upTo (← forLoop inside c p ts)
    | .switch => return upTo (← switch inside c p ts)
    | .goto =>
      match line with
      | [.atom (.ident name) _] => return (2, .other, [⟨.goto (c.userLabel name), p⟩])
      | _ => failAt .gotoLabel ts
    | k => return (line.length + 1, .other, ← lineStatement inside c k p line)
  | .group .brace inner p => return (1, .other, ← block inside c inner p)
  | t =>
    match t, ts with
    | .atom (.ident name) p, .atom .colon _ :: _ => return (2, .other, [⟨.label (c.userLabel name), p⟩])
    | t, _ => return (line.length + 1, ← simpleStatement inside c (t :: line))

/-- The statements of a list, each with its outcome. The first `skip` tokens are already done. -/
def statementsFrom (inside : Inside) (c : Place) :
    (toks : List Token) → (skip : Nat) → Shape (List (Outcome × List Step))
  | [], _ => return []
  | _ :: ts, skip + 1 => statementsFrom inside c ts skip
  | t :: ts, 0 => do
    if t.is .semicolon then statementsFrom inside c ts 0
    else
      let (n, r) ← statement inside c t ts
      return r :: (← statementsFrom inside c ts (n - 1))

def bodyWith (inside : Inside) (c : Place) (toks : List Token) : Shape (List Step) := do
  return ((← statementsFrom inside c toks 0).map (·.2)).flatten

end Shape

end Goblet
