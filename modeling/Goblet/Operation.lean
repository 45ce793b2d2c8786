import Goblet.Token

/-!
# Operations

The operators that compute a value, apart from the way a source text writes them.
-/

namespace Goblet

/-- Operations on two values. -/
inductive BinOp where
  | add | sub | mul | quo | rem | and | or | xor | shl | shr | eql | neq | lss | leq | gtr | geq
deriving DecidableEq, Repr

namespace BinOp

def ofOperator? : Operator → Option BinOp
  | .add => some .add
  | .sub => some .sub
  | .mul => some .mul
  | .quo => some .quo
  | .rem => some .rem
  | .and => some .and
  | .or => some .or
  | .xor => some .xor
  | .shl => some .shl
  | .shr => some .shr
  | .eql => some .eql
  | .neq => some .neq
  | .lss => some .lss
  | .leq => some .leq
  | .gtr => some .gtr
  | .geq => some .geq
  | _ => none

def text : BinOp → String
  | .add => "+" | .sub => "-" | .mul => "*" | .quo => "/" | .rem => "%"
  | .and => "&" | .or => "|" | .xor => "^" | .shl => "<<" | .shr => ">>"
  | .eql => "==" | .neq => "!=" | .lss => "<" | .leq => "<=" | .gtr => ">" | .geq => ">="

def isComparison : BinOp → Bool
  | .eql | .neq | .lss | .leq | .gtr | .geq => true
  | _ => false

/-- What an ordering comparison answers, from whether the left side is less, equal or greater. -/
def ordered (op : BinOp) (less equal greater : Bool) : Bool :=
  match op with
  | .lss => less
  | .leq => less || equal
  | .gtr => greater
  | _ => greater || equal

end BinOp

/-- Operations on one value. -/
inductive UnOp where
  | neg | not | bitNot
deriving DecidableEq, Repr

def UnOp.text : UnOp → String
  | .neg => "-"
  | .not => "!"
  | .bitNot => "^"

end Goblet
