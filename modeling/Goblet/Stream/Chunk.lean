import Goblet.Stream.Statement
import Goblet.Token.Scan

/-!
# Chunks

A chunk of source as a stream. Declarations that may be used before their line come first. The value of a last
expression is kept as the result; after a last assignment its target is read back as the result.
-/

namespace Goblet

def Inside.upTo : Nat → Inside
  | 0 =>
    { expr := fun _ _ => Shape.failAt .tooDeep []
      composite := fun _ _ _ p => Shape.fail .tooDeep p
      body := fun _ _ => Shape.failAt .tooDeep [] }
  | d + 1 =>
    { expr := Shape.exprWith (upTo d)
      composite := Shape.compositeWith (upTo d)
      body := Shape.bodyWith (upTo d) }

namespace Stream

/-- The state before anything is shaped, with the number of the first fresh name. -/
def start (labels : Nat) : ShapeState := ⟨labels, .first, []⟩

def keepResult (last : Pos) : List (Outcome × List Step) → List Step
  | [] => []
  | [(.expr, steps)] => (steps.drop 1).dropLast
  | [(.assign (some name), steps)] => steps ++ [⟨.ident name, last⟩]
  | [(_, steps)] => steps
  | (_, steps) :: rest => steps ++ keepResult last rest

def chunkSteps (toks : List Token) : Shape (List Step) := do
  let body ← Shape.statementsFrom (Inside.upTo (Token.nestings toks)) .chunk toks 0
  let s ← get
  return s.hoisted ++ keepResult s.last body

/-- Shapes a chunk with fresh names numbered from `labels`. Gives the number of the next fresh name in any case. -/
def ofTokens (labels : Nat) (toks : List Token) : Except ParseError (List Step) × Nat :=
  match chunkSteps toks (start labels) with
  | .ok steps s => (.ok steps, s.labels)
  | .error e s => (.error e, s.labels)

end Stream

end Goblet
