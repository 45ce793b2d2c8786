import Goblet.Token
import Goblet.TypeExpr

/-!
# Streams

A chunk of source in the order in which it is carried out: operands before the operator that takes them, arguments
before the callee, and every control structure as labels and jumps. A stream is a flat list of steps.
-/

namespace Goblet

/-- How the elements of a composite literal are given. -/
inductive Keys where
  /-- In order. -/
  | positional
  /-- By field name, values in the order written. -/
  | fields (names : List String)
  /-- As entries, each a key and a value. -/
  | pairs
deriving DecidableEq

/-- What a step does. -/
inductive Act where
  /-- An operand; any other lexical token here has no meaning. -/
  | atom (a : Atom)
  | group (d : Delim) (inner : List Token)
  | binary (op : Operator)
  | unary (op : Operator)
  /-- A call with the callee on top of its arguments; `spread` for a final argument `xs...`. -/
  | call (argc : Nat) (spread : Bool)
  | index
  | slice (low high : Bool)
  | field (name : String)
  | composite (ty : TypeExpr) (len : Nat) (keys : Keys)
  /-- A type where a value would stand. -/
  | typeRef (ty : TypeExpr)
  /-- Stores into the name just before, declaring it. -/
  | define
  /-- Stores into the name just before. -/
  | assign
  | declare (name : String) (ty : Option TypeExpr) (init : Bool)
  /-- The base of a store into a field: the address of a variable, or the pointer it holds. -/
  | place (name : String)
  | indexAssign
  | fieldAssign (path : List String)
  | derefAssign
  | constant (name : String) (ty : Option TypeExpr) (expr : List (At Act)) (iota : Int64)
  | typeDef (name : String) (ty : TypeExpr)
  | imports (name path : String)
  /-- The signature of a function whose body comes later. -/
  | header (name : String) (sig : Signature)
  /-- The start of a function body; the label `<name>_end` closes it. -/
  | body (name : String) (sig : Signature)
  | ret (n : Nat)
  | label (name : String)
  | goto (label : String)
  | jumpFalse (label : String)
  | jumpTrue (label : String)
  /-- Jumps and keeps the condition if it is false, else drops it. -/
  | jumpSetFalse (label : String)
  | jumpSetTrue (label : String)
  | range
  /-- Takes the next item of the range on top, or jumps when there is none. -/
  | next (label : String) (key value : Option String) (define : Bool)
  | enter (scope : String)
  | leave
  | mark
  | discard
  | drop

instance : Inhabited Act := ⟨.drop⟩

/-- A step of a stream, with the place it came from. -/
abbrev Step := At Act

instance : Inhabited Step := ⟨⟨.drop, .none⟩⟩

namespace Act

def ident (name : String) : Act := .atom (.ident name)

/-- `true` or `false`. -/
def flagText (b : Bool) : String := if b then "true" else "false"

def text : Act → String
  | .atom a => a.text
  | .group d inner => (Token.group d inner .none).text
  | .binary op => op.text
  | .unary op => op.text ++ "u"
  | .call argc spread => "Call(" ++ toString argc ++ (if spread then "..." else "") ++ ")"
  | .index => "Index"
  | .slice low high => "Slice(" ++ flagText low ++ ", " ++ flagText high ++ ")"
  | .field name => "." ++ name
  | .composite ty len _ => "Composite(" ++ ty.text ++ ", " ++ toString len ++ ")"
  | .typeRef ty => "Type(" ++ ty.text ++ ")"
  | .define => ":="
  | .assign => "="
  | .declare name (some ty) init => "Decl(" ++ name ++ " " ++ ty.text ++ ", " ++ flagText init ++ ")"
  | .declare name none init => "Decl(" ++ name ++ ", " ++ flagText init ++ ")"
  | .place name => "Place(" ++ name ++ ")"
  | .indexAssign => "IndexAssign"
  | .fieldAssign path => "FieldAssign(" ++ Text.joined "." path ++ ")"
  | .derefAssign => "DerefAssign"
  | .constant name _ _ iota => "Const(" ++ name ++ ", iota=" ++ toString iota.toInt ++ ")"
  | .typeDef name ty => "TypeDecl(" ++ name ++ " " ++ ty.text ++ ")"
  | .imports name path => "Import(" ++ name ++ " " ++ Text.quoted path ++ ")"
  | .header name sig => "FuncDecl(" ++ name ++ sig.text ++ ")"
  | .body name sig => "Func(" ++ name ++ sig.text ++ ")"
  | .ret n => "Return(" ++ toString n ++ ")"
  | .label l => l ++ ":"
  | .goto l => "Goto(" ++ l ++ ")"
  | .jumpFalse l => "JumpFalse(" ++ l ++ ")"
  | .jumpTrue l => "JumpTrue(" ++ l ++ ")"
  | .jumpSetFalse l => "JumpSetFalse(" ++ l ++ ")"
  | .jumpSetTrue l => "JumpSetTrue(" ++ l ++ ")"
  | .range => "Range"
  | .next l key value _ => "Next(" ++ l ++ ", " ++ key.getD "_" ++ ", " ++ value.getD "_" ++ ")"
  | .enter scope => "Enter(" ++ scope ++ ")"
  | .leave => "Leave"
  | .mark => "Mark"
  | .discard => "Discard"
  | .drop => "Drop"

end Act

end Goblet
