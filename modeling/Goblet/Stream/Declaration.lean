import Goblet.Stream.Expression

/-!
# Shaping declarations

Declarations of functions, variables, constants, types and imports. At the top level all but variables and function
bodies go to the head of the chunk, so that code may use them before the line where they stand.
-/

namespace Goblet.Shape

/-- The specifications of a declaration: one, or several between parentheses. -/
def specs : List Token → List (List Token)
  | [.group .paren inner _] => (Token.clauses inner).filter (!·.isEmpty)
  | toks => [toks]

def declNames (last : Pos) : List Token → Except ParseError (List String × List Token)
  | .atom (.ident n) _ :: .atom .comma _ :: ts => do
    let (names, rest) ← declNames last ts
    return (n :: names, rest)
  | .atom (.ident n) _ :: ts => .ok ([n], ts)
  | ts => .error ⟨.declName, Token.posOr last ts⟩

/-- A specification of variables or constants, as in `a, b T = x, y`. -/
structure ValueSpec where
  names : List String
  ty : Option TypeExpr
  values : Option (List (List Token))

def ValueSpec.read (last : Pos) (toks : List Token) : Except ParseError ValueSpec := do
  let left := toks.takeWhile (!·.is (.op .assign))
  let values := match toks.drop left.length with
    | _ :: right => some (Token.commaList right)
    | [] => none
  let (names, rest) ← declNames last left
  let ty ← if rest.isEmpty then .ok none else (TypeExpr.readAll last rest).map some
  return ⟨names, ty, values⟩

def exprList (inside : Inside) (c : Place) : List (List Token) → Shape (List (List Step))
  | [] => return []
  | e :: es => do
    let steps ← exprWith inside c e
    return steps :: (← exprList inside c es)

def exprs (inside : Inside) (c : Place) (es : List (List Token)) : Shape (List Step) := do
  return (← exprList inside c es).flatten

/-- Puts declarations to the head of the chunk at the top level, else leaves them where they are. -/
def declarations (c : Place) (decls : List Step) : Shape (List Step) := do
  if c.top then
    hoist decls
    return []
  else return decls

/-! ## Variables -/

def varSpec (inside : Inside) (c : Place) (toks : List Token) : Shape (List Step) := do
  let p := Token.posOr (← last) toks
  let spec ← lift (ValueSpec.read · toks)
  match spec.values, spec.ty with
  | none, none => fail .varEmpty p
  | none, some ty => return spec.names.map fun n => ⟨.declare n (some ty) false, p⟩
  | some values, ty =>
    if values.length ≠ spec.names.length ∧ values.length ≠ 1 then
      fail (.countMismatch spec.names.length values.length) p
    else
      let steps ← exprs inside c values
      return steps ++ spec.names.reverse.map fun n => ⟨.declare n ty true, p⟩

def varSpecs (inside : Inside) (c : Place) : List (List Token) → Shape (List Step)
  | [] => return []
  | spec :: rest => do
    let steps ← varSpec inside c spec
    return steps ++ (← varSpecs inside c rest)

/-! ## Constants -/

/-- The type and the expressions of a specification at `p`; one without values repeats those before it. -/
def constCurrent (inside : Inside) (c : Place) (p : Pos) (spec : ValueSpec)
    (previous : Option (Option TypeExpr × List (List Step))) :
    Shape (Option (Option TypeExpr × List (List Step))) :=
  match spec.values, spec.ty with
  | some values, ty => do return some (ty, ← exprList inside c values)
  | none, some _ => fail .constType p
  | none, none => return previous

/-- The specifications of constants in order, `iota` counting them. -/
def constSpecs (inside : Inside) (c : Place) :
    List (List Token) → (iota : Nat) → Option (Option TypeExpr × List (List Step)) → Shape (List Step)
  | [], _, _ => return []
  | toks :: rest, iota, previous => do
    let p := Token.posOr (← last) toks
    let spec ← lift (ValueSpec.read · toks)
    let current ← constCurrent inside c p spec previous
    match current with
    | none => fail .constInit p
    | some (ty, es) =>
      if es.length ≠ spec.names.length then fail (.constCount spec.names.length es.length) p
      else
        let decls := (spec.names.zip es).map fun (n, e) => ⟨Act.constant n ty e (Int64.ofNat iota), p⟩
        return decls ++ (← constSpecs inside c rest (iota + 1) current)

/-! ## Types and imports -/

def typeSpecs : List (List Token) → Shape (List Step)
  | [] => return []
  | (.atom (.ident n) p :: toks) :: rest => do
    let toks := match toks with
      | .atom (.op .assign) _ :: ts => ts
      | ts => ts
    let ty ← lift (TypeExpr.readAll · toks)
    return ⟨.typeDef n ty, p⟩ :: (← typeSpecs rest)
  | toks :: _ => failAt .typeName toks

/-- The part of a path after its last `/`. -/
def lastPart (path : String) : String :=
  String.ofList (path.toList.reverse.takeWhile (· != '/')).reverse

def importSpecs : List (List Token) → Shape (List Step)
  | [] => return []
  | [.atom (.str path) p] :: rest => do return ⟨.imports (lastPart path) path, p⟩ :: (← importSpecs rest)
  | [.atom (.ident n) p, .atom (.str path) _] :: rest => do return ⟨.imports n path, p⟩ :: (← importSpecs rest)
  | toks :: _ => failAt .malformedImport toks

/-! ## Functions -/

/-- A function declaration from its line, which begins with `func` at `p`; `rest` is what follows. -/
def funcDeclaration (inside : Inside) (c : Place) (p : Pos) (rest : List Token) : Shape (List Step) := do
  match rest with
  | .atom (.ident name) _ :: rest =>
    if !c.top then fail .nestedFunc p
    else
      match rest with
      | .group .paren params _ :: rest =>
        match rest.getLast? with
        | some (.group .brace body _) =>
          let sig ← lift (Signature.read · params rest.dropLast)
          let key := c.scope ++ "/" ++ name
          hoist [⟨.header key sig, p⟩]
          funcBody inside key sig body p
        | _ => fail (.funcBody name) p
      | rest => failAt .funcParams rest
  | .group .paren _ _ :: _ => fail .method p
  | rest => failAt .funcName rest

end Goblet.Shape
