import Goblet.TypeExpr
import Goblet.ParseError

/-!
# Reading written types

`TypeExpr.read` reads the type a token list begins with and says how many tokens it took; `TypeExpr.readAll` wants the
list to be one type. Contents of groups are read one level down, so the recursion ends with the nesting of the
tokens. Errors at the end of a list are placed at `last`, the last place that was looked at before.
-/

namespace Goblet

/-! ## Parameter lists -/

/-- One entry of a parameter list. -/
inductive ParamEntry where
  | named (name : String) (ty : TypeExpr)
  /-- A lone identifier: a name if any entry is named, else a type. -/
  | lone (name : String)
  | bare (ty : TypeExpr)

namespace ParamEntry

def isNamed : ParamEntry → Bool
  | .named .. => true
  | _ => false

/-- Names and types of entries, last entry first, when some entry is named: a lone name takes the type of the entry
after it. -/
def carry (last : Pos) : Option TypeExpr → List ParamEntry → Except ParseError (List (Option String × TypeExpr))
  | _, [] => .ok []
  | _, .named name ty :: es => do return (some name, ty) :: (← carry last (some ty) es)
  | some ty, .lone name :: es => do return (some name, ty) :: (← carry last (some ty) es)
  | none, .lone _ :: _ => .error ⟨.mixedParams, last⟩
  | _, .bare _ :: _ => .error ⟨.mixedParams, last⟩

def ty : ParamEntry → TypeExpr
  | .named _ t => t
  | .lone name => .name name
  | .bare t => t

def params (last : Pos) (es : List ParamEntry) : Except ParseError (List (Option String × TypeExpr)) :=
  if es.any isNamed then (carry last none es.reverse).map List.reverse
  else .ok (es.map fun e => (none, e.ty))

end ParamEntry

namespace TypeExpr

section

variable (all : List Token → Except ParseError TypeExpr) (last : Pos)

def entryParts : List Token → Option String × List Token
  | .atom (.ident n) p :: t :: ts => if t.is .dot then (none, .atom (.ident n) p :: t :: ts) else (some n, t :: ts)
  | ts => (none, ts)

def entries : List (List Token) → Except ParseError (List ParamEntry × Bool)
  | [] => .ok ([], false)
  | [.atom (.ident n) _] :: rest => do
    let (es, variadic) ← entries rest
    return (.lone n :: es, variadic)
  | entry :: rest => do
    let (n?, toks) := entryParts entry
    let (spread, toks) ← match toks with
      | .atom .ellipsis p :: ts => if rest.isEmpty then .ok (true, ts) else .error ⟨.spreadParam, p⟩
      | ts => .ok (false, ts)
    if toks.isEmpty then throw ⟨.paramType, Token.posOr last entry⟩
    let t ← all toks
    let (es, variadic) ← entries rest
    let e := match n? with
      | some n => ParamEntry.named n t
      | none => ParamEntry.bare t
    return (e :: es, spread || variadic)

def paramList (toks : List Token) : Except ParseError (List (Option String × TypeExpr) × Bool) := do
  let (es, variadic) ← entries all last (Token.commaList (Token.withoutSemicolons toks))
  return (← ParamEntry.params last es, variadic)

def resultList (toks : List Token) : Except ParseError (List (Option String × TypeExpr)) := do
  let (results, variadic) ← paramList all last toks
  if variadic then throw ⟨.variadicResult, Token.posOr last toks⟩
  return results

/-! ## Structs -/

def fieldNames : List Token → List String × List Token
  | .atom (.ident n) _ :: .atom .comma _ :: ts =>
    let (names, rest) := fieldNames ts
    (n :: names, rest)
  | .atom (.ident n) _ :: ts => ([n], ts)
  | ts => ([], ts)

def structFields : List (List Token) → Except ParseError (List (String × TypeExpr))
  | [] => .ok []
  | decl :: decls => do
    let (names, rest) := fieldNames decl
    if names.isEmpty || rest.isEmpty then throw ⟨.embeddedField, Token.posOr last decl⟩
    let t ← all rest
    let fs ← structFields decls
    return names.map (·, t) ++ fs

/-! ## Types -/

def beginsType : Token → Bool
  | .atom (.ident _) _ | .group .bracket _ _ | .atom (.keyword .map) _ | .atom (.keyword .func) _
  | .atom (.keyword .struct) _ | .atom (.op .mul) _ => true
  | _ => false

/-- The type at the head of a list, with the number of tokens it takes; `all` reads the contents of groups. -/
def readWith : List Token → Except ParseError (TypeExpr × Nat)
  | [] => .error ⟨.typeExpected, last⟩
  | .atom (.ident n) _ :: _ => .ok (.name n, 1)
  | .group .bracket inner p :: ts =>
    if inner.isEmpty then do
      let (e, n) ← readWith ts
      return (.slice e, n + 1)
    else .error ⟨.fixedArray, p⟩
  | .atom (.keyword .map) _ :: .group .bracket inner _ :: ts => do
    let k ← all inner
    let (v, n) ← readWith ts
    return (.map k v, n + 2)
  | .atom (.keyword .map) _ :: ts => .error ⟨.mapBracket, Token.posOr last ts⟩
  | .atom (.op .mul) _ :: ts => do
    let (e, n) ← readWith ts
    return (.ptr e, n + 1)
  | .atom (.keyword .func) _ :: .group .paren params _ :: ts =>
    match ts with
    | .group .paren inner _ :: _ => do
      let (ps, variadic) ← paramList all last params
      let rs ← resultList all last inner
      return (.func ps rs variadic, 3)
    | t :: ts' =>
      if beginsType t then do
        let (r, n) ← readWith (t :: ts')
        let (ps, variadic) ← paramList all last params
        return (.func ps [(none, r)] variadic, n + 2)
      else do
        let (ps, variadic) ← paramList all last params
        return (.func ps [] variadic, 2)
    | [] => do
      let (ps, variadic) ← paramList all last params
      return (.func ps [] variadic, 2)
  | .atom (.keyword .func) _ :: ts => .error ⟨.funcParen, Token.posOr last ts⟩
  | .atom (.keyword .struct) _ :: .group .brace inner _ :: _ => do
    let fs ← structFields all last ((Token.clauses inner).filter (!·.isEmpty))
    return (.struct fs, 2)
  | .atom (.keyword .struct) _ :: ts => .error ⟨.structBrace, Token.posOr last ts⟩
  | .group .paren inner _ :: _ => do return (← all inner, 1)
  | t :: _ => .error ⟨.typeFound t.text, t.pos⟩

def readAllWith (toks : List Token) : Except ParseError TypeExpr := do
  let (t, n) ← readWith all last toks
  if n ≠ toks.length then throw ⟨.afterType, Token.posOr last (toks.drop n)⟩
  return t

end

/-- A list that is one type, for lists nested no deeper than `depth`. -/
def readAllTo (last : Pos) : (depth : Nat) → List Token → Except ParseError TypeExpr
  | 0 => readAllWith (fun _ => .error ⟨.tooDeep, last⟩) last
  | d + 1 => readAllWith (readAllTo last d) last

def readAll (last : Pos) (toks : List Token) : Except ParseError TypeExpr :=
  readAllTo last (Token.nestings toks) toks

def read (last : Pos) (toks : List Token) : Except ParseError (TypeExpr × Nat) :=
  readWith (readAll last) last toks

end TypeExpr

/-- A signature from the contents of the parameter list and the tokens between it and the body. -/
def Signature.read (last : Pos) (params results : List Token) : Except ParseError Signature := do
  let (ps, variadic) ← TypeExpr.paramList (TypeExpr.readAll last) last params
  let rs ← match results with
    | [] => .ok []
    | [.group .paren inner _] => TypeExpr.resultList (TypeExpr.readAll last) last inner
    | toks => (TypeExpr.readAll last toks).map fun t => [(none, t)]
  return ⟨ps, rs, variadic⟩

end Goblet
