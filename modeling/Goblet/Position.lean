/-!
# Positions

Lines and columns of a source text, both counted from one, columns in characters.
-/

namespace Goblet

/-- A place in a source text. -/
structure Pos where
  line : Nat
  col : Nat
deriving DecidableEq, Repr, Inhabited

namespace Pos

def first : Pos := ⟨1, 1⟩

/-- The place of no text, used where a chunk is empty. -/
def none : Pos := ⟨0, 0⟩

def next (p : Pos) (c : Char) : Pos := if c = '\n' then ⟨p.line + 1, 1⟩ else ⟨p.line, p.col + 1⟩

/-- `line:col`. -/
def text (p : Pos) : String := toString p.line ++ ":" ++ toString p.col

end Pos

/-- Something with the place it came from. -/
structure At (α : Type) where
  val : α
  pos : Pos
deriving Repr

end Goblet
