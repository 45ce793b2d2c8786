import Goblet.Text.Layout

/-!
# Written types

Types as a source text writes them, with names that are still to be looked up.
-/

namespace Goblet

/-- A type as written. Parameters and results may be named; in a variadic function the last parameter is written with
the type of its elements. -/
inductive TypeExpr where
  | name (n : String)
  | slice (elem : TypeExpr)
  | map (key value : TypeExpr)
  | ptr (elem : TypeExpr)
  | func (params results : List (Option String × TypeExpr)) (variadic : Bool)
  | struct (fields : List (String × TypeExpr))

instance : Inhabited TypeExpr := ⟨.name ""⟩

def spreadLast : List String → List String
  | [] => []
  | [p] => ["..." ++ p]
  | p :: ps => p :: spreadLast ps

/-- The result part of a signature: nothing, one type, or several in parentheses. -/
def resultText : List String → String
  | [] => ""
  | [r] => " " ++ r
  | rs => " (" ++ Text.joined ", " rs ++ ")"

namespace TypeExpr

mutual

def text : TypeExpr → String
  | .name n => n
  | .slice e => "[]" ++ e.text
  | .map k v => "map[" ++ k.text ++ "]" ++ v.text
  | .ptr e => "*" ++ e.text
  | .func ps rs variadic =>
    let params := paramTexts ps
    "func(" ++ Text.joined ", " (if variadic then spreadLast params else params) ++ ")" ++ resultText (paramTexts rs)
  | .struct fs => "struct\x7b" ++ Text.joined "; " (fieldTexts fs) ++ "\x7d"

def paramTexts : List (Option String × TypeExpr) → List String
  | [] => []
  | (_, t) :: ps => t.text :: paramTexts ps

def fieldTexts : List (String × TypeExpr) → List String
  | [] => []
  | (n, t) :: fs => (n ++ " " ++ t.text) :: fieldTexts fs

end

end TypeExpr

/-- The written signature of a function. -/
structure Signature where
  params : List (Option String × TypeExpr)
  results : List (Option String × TypeExpr)
  variadic : Bool

namespace Signature

instance : Inhabited Signature := ⟨⟨[], [], false⟩⟩

/-- The signature as text, without `func` in front. -/
def text (s : Signature) : String :=
  let params := TypeExpr.paramTexts s.params
  "(" ++ Text.joined ", " (if s.variadic then spreadLast params else params) ++ ")"
    ++ resultText (TypeExpr.paramTexts s.results)

/-- The names of the results, if there are results and all of them are named. -/
def namedResults? (s : Signature) : Option (List String) :=
  match s.results with
  | [] => none
  | rs => rs.mapM (·.1)

end Signature

end Goblet
