import Goblet.ParseError
import Goblet.Stream

/-!
# Where a piece of source stands

`Place` says what surrounds a piece of source: its scope, the function it is in and where `break` and `continue` lead.
`Shape` is what turning tokens into steps needs besides: a counter for fresh names, the last place looked at, and the
declarations that go to the head of the chunk. The counter keeps what it has reached when shaping fails.
-/

namespace Goblet

/-- The function around a piece of source. -/
structure Enclosing where
  name : String
  /-- The names of its results, if they are named. -/
  results : Option (List String)

/-- What surrounds a piece of source. -/
structure Place where
  /-- The path of the innermost scope. -/
  scope : String
  func : Option Enclosing
  /-- Whether it is at the top level of the chunk. -/
  top : Bool
  /-- Where `break` leads. -/
  brk : Option String
  /-- Where `continue` leads. -/
  cont : Option String

namespace Place

def mainScope : String := "main"

def chunk : Place := ⟨mainScope, none, true, none, none⟩

def within (c : Place) (scope : String) : Place := { c with scope := scope, top := false }

def loop (c : Place) (brk cont : String) : Place := { c with brk := some brk, cont := some cont }

def funcBody (name : String) (sig : Signature) : Place := ⟨name, some ⟨name, sig.namedResults?⟩, false, none, none⟩

def userLabel (c : Place) (name : String) : String :=
  (match c.func with
    | some f => f.name
    | none => mainScope) ++ "/" ++ name

end Place

/-- What is kept while shaping. -/
structure ShapeState where
  /-- The number of the next fresh name. -/
  labels : Nat
  /-- The place of the statement, operand or operator begun last. -/
  last : Pos
  /-- Steps for the head of the chunk. -/
  hoisted : List Step

/-- Shaping: steps from tokens, with fresh names. -/
abbrev Shape := EStateM ParseError ShapeState

namespace Shape

def last : Shape Pos := do return (← get).last

def look (p : Pos) : Shape Unit := modify ({ · with last := p })

def hoist (steps : List Step) : Shape Unit := modify fun s => { s with hoisted := s.hoisted ++ steps }

def fail (cause : ParseCause) (p : Pos) : Shape α := throw ⟨cause, p⟩

def failAt (cause : ParseCause) (toks : List Token) : Shape α := do fail cause (Token.posOr (← last) toks)

def lift (r : Pos → Except ParseError α) : Shape α := do
  match r (← last) with
  | .ok a => return a
  | .error e => throw e

/-- A fresh name such as `#x12`. -/
def freshName (tag : String) : Shape String := do
  let s ← get
  set { s with labels := s.labels + 1 }
  return "#" ++ tag ++ toString s.labels

def fresh (c : Place) (tag : String) : Shape String := do return c.scope ++ "/" ++ (← freshName tag)

end Shape

/-- How what stands inside brackets is shaped: by the same rules, one level down. -/
structure Inside where
  expr : Place → List Token → Shape (List Step)
  /-- The elements of a composite literal of this type, with its place. -/
  composite : Place → TypeExpr → List Token → Pos → Shape (List Step)
  body : Place → List Token → Shape (List Step)

end Goblet
