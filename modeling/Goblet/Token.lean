import Goblet.Position
import Goblet.Decimal.Shortest
import Goblet.Double
import Goblet.Text.Layout
import Goblet.Text.Quoted

/-!
# Tokens

The lexical tokens of the language. Brackets are matched while reading, so a bracketed group is one token that holds
its contents and a source text is a forest of tokens.
-/

namespace Goblet

/-- Kinds of brackets. -/
inductive Delim where
  | paren | bracket | brace
deriving DecidableEq, Repr

namespace Delim

def opening : Delim → Char
  | .paren => '('
  | .bracket => '['
  | .brace => '\x7b'

def closing : Delim → Char
  | .paren => ')'
  | .bracket => ']'
  | .brace => '\x7d'

end Delim

/-! ## Keywords -/

/-- The reserved words. -/
inductive Keyword where
  | break | case | const | continue | default | else | for | func | goto | if | import | map | package | range
  | return | struct | switch | type | var
deriving DecidableEq, Repr

namespace Keyword

def text : Keyword → String
  | .break => "break" | .case => "case" | .const => "const" | .continue => "continue" | .default => "default"
  | .else => "else" | .for => "for" | .func => "func" | .goto => "goto" | .if => "if" | .import => "import"
  | .map => "map" | .package => "package" | .range => "range" | .return => "return" | .struct => "struct"
  | .switch => "switch" | .type => "type" | .var => "var"

def all : List Keyword :=
  [.break, .case, .const, .continue, .default, .else, .for, .func, .goto, .if, .import, .map, .package, .range,
    .return, .struct, .switch, .type, .var]

def ofText? (s : String) : Option Keyword := all.find? (·.text == s)

end Keyword

/-! ## Operators -/

/-- The operators, as written in a source text. -/
inductive Operator where
  | add | sub | mul | quo | rem | and | or | xor | shl | shr
  | land | lor | not
  | eql | neq | lss | leq | gtr | geq
  | assign | define | addAssign | subAssign | mulAssign | quoAssign | remAssign | inc | dec
deriving DecidableEq, Repr

namespace Operator

def text : Operator → String
  | .add => "+" | .sub => "-" | .mul => "*" | .quo => "/" | .rem => "%"
  | .and => "&" | .or => "|" | .xor => "^" | .shl => "<<" | .shr => ">>"
  | .land => "&&" | .lor => "||" | .not => "!"
  | .eql => "==" | .neq => "!=" | .lss => "<" | .leq => "<=" | .gtr => ">" | .geq => ">="
  | .assign => "=" | .define => ":=" | .addAssign => "+=" | .subAssign => "-=" | .mulAssign => "*="
  | .quoAssign => "/=" | .remAssign => "%=" | .inc => "++" | .dec => "--"

def all : List Operator :=
  [.add, .sub, .mul, .quo, .rem, .and, .or, .xor, .shl, .shr, .land, .lor, .not, .eql, .neq, .lss, .leq, .gtr, .geq,
    .assign, .define, .addAssign, .subAssign, .mulAssign, .quoAssign, .remAssign, .inc, .dec]

def ofText? (s : String) : Option Operator := all.find? (·.text == s)

/-- Binary precedence, higher binds tighter; none for what never stands between operands. -/
def precedence? : Operator → Option Nat
  | .mul | .quo | .rem | .shl | .shr | .and => some 5
  | .add | .sub | .or | .xor => some 4
  | .eql | .neq | .lss | .leq | .gtr | .geq => some 3
  | .land => some 2
  | .lor => some 1
  | _ => none

def isUnary : Operator → Bool
  | .add | .sub | .not | .xor | .and | .mul => true
  | _ => false

def isComparison : Operator → Bool
  | .eql | .neq | .lss | .leq | .gtr | .geq => true
  | _ => false

def compoundBase? : Operator → Option Operator
  | .addAssign | .inc => some .add
  | .subAssign | .dec => some .sub
  | .mulAssign => some .mul
  | .quoAssign => some .quo
  | .remAssign => some .rem
  | _ => none

def isAssignment : Operator → Bool
  | .assign | .define | .addAssign | .subAssign | .mulAssign | .quoAssign | .remAssign | .inc | .dec => true
  | _ => false

end Operator

/-! ## Tokens -/

/-- A token other than a bracketed group. -/
inductive Atom where
  | ident (name : String)
  | int (n : Int64)
  | float (x : Double)
  | str (s : String)
  | keyword (k : Keyword)
  | op (o : Operator)
  | comma | semicolon | colon | dot | ellipsis
deriving DecidableEq

namespace Atom

def text : Atom → String
  | .ident name => name
  | .int n => toString n.toInt
  | .float x => Decimal.text .literal x.toFloat
  | .str s => Text.quoted s
  | .keyword k => k.text
  | .op o => o.text
  | .comma => ","
  | .semicolon => ";"
  | .colon => ":"
  | .dot => "."
  | .ellipsis => "..."

def endsStatement : Atom → Bool
  | .ident _ | .int _ | .float _ | .str _ => true
  | .keyword .break | .keyword .continue | .keyword .return => true
  | .op .inc | .op .dec => true
  | _ => false

end Atom

/-- A token with its place; a group is placed at its opening bracket. -/
inductive Token where
  | atom (a : Atom) (pos : Pos)
  | group (d : Delim) (inner : List Token) (pos : Pos)

namespace Token

instance : Inhabited Token := ⟨.atom .comma .none⟩

def pos : Token → Pos
  | .atom _ p => p
  | .group _ _ p => p

def is (t : Token) (a : Atom) : Bool :=
  match t with
  | .atom b _ => b == a
  | .group .. => false

def endsStatement : Token → Bool
  | .atom a _ => a.endsStatement
  | .group .. => true

mutual

/-- The token as text; the contents of a group are separated by blanks. -/
def text : Token → String
  | .atom a _ => a.text
  | .group d inner _ => d.opening.toString ++ Text.joined " " (texts inner) ++ d.closing.toString

def texts : List Token → List String
  | [] => []
  | t :: ts => t.text :: texts ts

end

mutual

def nesting : Token → Nat
  | .atom .. => 0
  | .group _ inner _ => nestings inner + 1

def nestings : List Token → Nat
  | [] => 0
  | t :: ts => max t.nesting (nestings ts)

end

/-! ## Lists of tokens -/

def splitBy (p : Token → Bool) : List Token → List (List Token)
  | [] => [[]]
  | t :: ts =>
    if p t then [] :: splitBy p ts
    else
      match splitBy p ts with
      | part :: parts => (t :: part) :: parts
      | [] => [[t]]

def clauses (ts : List Token) : List (List Token) := splitBy (·.is .semicolon) ts

/-- The parts between commas. No tokens are no parts, and a comma at the end does not begin another. -/
def commaList (ts : List Token) : List (List Token) :=
  match ts with
  | [] => []
  | ts =>
    let parts := splitBy (·.is .comma) ts
    if parts.length > 1 && (parts.getLast?.map List.isEmpty).getD false then parts.dropLast else parts

/-- The tokens without semicolons, which a line end inside brackets may have put there. -/
def withoutSemicolons (ts : List Token) : List Token := ts.filter (!·.is .semicolon)

end Token

end Goblet
