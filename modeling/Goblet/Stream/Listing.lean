import Goblet.Stream

/-!
# Listings of streams

One line a step: its place, its kind and its text. Scopes and function bodies may be indented, kinds coloured.
-/

namespace Goblet.Stream

/-- How a listing looks. -/
structure ListingStyle where
  color : Bool
  indent : Bool

/-- Colours of a terminal. -/
inductive Color where
  | reset | dim | green | yellow | cyan | magenta | blue

def Color.text : Color → String
  | .reset => "\x1b[0m"
  | .dim => "\x1b[2m"
  | .green => "\x1b[32m"
  | .yellow => "\x1b[33m"
  | .cyan => "\x1b[36m"
  | .magenta => "\x1b[35m"
  | .blue => "\x1b[34m"

def kind : Act → String
  | .atom (.int _) | .atom (.float _) => "NUMBER"
  | .atom (.str _) => "STRING"
  | .atom (.ident _) | .place _ => "IDENT"
  | .binary _ | .unary _ => "OP"
  | .call .. => "CALL"
  | .index | .slice .. | .field _ | .composite .. => "ACCESS"
  | .typeRef _ | .typeDef .. => "TYPE"
  | .define | .assign | .indexAssign | .fieldAssign _ | .derefAssign | .declare .. => "STORE"
  | .constant .. => "CONST"
  | .imports .. => "IMPORT"
  | .header .. | .body .. | .ret _ => "FUNC"
  | .label _ => "LABEL"
  | .goto _ | .jumpFalse _ | .jumpTrue _ | .jumpSetFalse _ | .jumpSetTrue _ | .range | .next .. => "JUMP"
  | .enter _ | .leave => "SCOPE"
  | .mark | .discard | .drop => "STACK"
  | .atom _ | .group .. => "LEXEME"

def color : Act → Color
  | .enter _ | .leave | .mark | .discard | .drop => .dim
  | .atom (.str _) => .green
  | .atom (.int _) | .atom (.float _) => .cyan
  | .atom (.ident _) | .place _ => .yellow
  | .binary _ | .unary _ => .magenta
  | .label _ | .goto _ | .jumpFalse _ | .jumpTrue _ | .jumpSetFalse _ | .jumpSetTrue _ => .blue
  | _ => .reset

def closes : Act → Bool
  | .leave => true
  | .label l => l.endsWith "_end"
  | _ => false

def opens : Act → Bool
  | .enter _ | .body .. => true
  | _ => false

def line (style : ListingStyle) (depth : Nat) (s : Step) : String :=
  let pad := if style.indent then Text.repeated depth "  " else ""
  let (before, after) := if style.color then ((color s.val).text, Color.reset.text) else ("", "")
  "[" ++ Text.zeroPad 2 s.pos.line ++ ":" ++ Text.zeroPad 2 s.pos.col ++ "] " ++ pad ++ before
    ++ Text.padRight 8 (kind s.val) ++ " " ++ s.val.text ++ after

def linesFrom (style : ListingStyle) : Nat → List Step → List String
  | _, [] => []
  | depth, s :: ss =>
    let depth := if closes s.val then depth - 1 else depth
    line style depth s :: linesFrom style (if opens s.val then depth + 1 else depth) ss

def listing (style : ListingStyle) (steps : List Step) : List String := linesFrom style 0 steps

end Goblet.Stream
