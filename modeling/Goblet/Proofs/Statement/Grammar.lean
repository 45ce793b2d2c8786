import Goblet.Proofs.Scalar.Grammar
import Goblet.Proofs.Statement.Semantics

/-!
# How statements are written

`Block.Forms V b c body ts` says that the tokens `ts` write the statements `body` with names and types from `V`, where
`b` and `c` say whether `break` and `continue` may stand outside its own loops and switches. Semicolons, which a line
end puts there, stand behind simple statements and may stand between any others.
-/

namespace Goblet

/-- The names of variables and the names of types that a program may use. -/
structure Lexicon where
  name : String → Prop
  type : String → Prop

namespace Lexicon

variable (V : Lexicon)

/-- An expression with these names. -/
structure Writes (e : Expr) (ts : List Token) : Prop where
  forms : e.Forms Alphabet.tokens 1 ts
  names : ∀ x ∈ e.vars, V.name x

/-- Expressions with commas between them. -/
inductive Lists : List Expr → List Token → Prop
  | one {e : Expr} {ts : List Token} (h : V.Writes e ts) : Lists [e] ts
  | more {e : Expr} {es : List Expr} {ts us : List Token} {p : Pos} (h : V.Writes e ts) (hs : Lists es us) :
      Lists (e :: es) (ts ++ .atom .comma p :: us)

/-- Names with commas between them. -/
inductive Names : List String → List Token → Prop
  | one {x : String} {p : Pos} (h : V.name x) : Names [x] [.atom (.ident x) p]
  | more {x : String} {xs : List String} {ts : List Token} {p q : Pos} (h : V.name x) (hs : Names xs ts) :
      Names (x :: xs) (.atom (.ident x) p :: .atom .comma q :: ts)

end Lexicon

/-- Tokens that may be missing. -/
inductive Optional {α : Type} (P : α → List Token → Prop) : Option α → List Token → Prop
  | none : Optional P none []
  | some {a : α} {ts : List Token} (h : P a ts) : Optional P (some a) ts

/-- Tokens that are semicolons. -/
def Token.Semicolons (ts : List Token) : Prop := ∀ t ∈ ts, t.is .semicolon = true

variable (V : Lexicon)

/-! ## Assignments -/

/-- An assignment that may stand in a header. -/
inductive Assignment.Simple : Assignment → List Token → Prop
  | define {pairs : List (String × Expr)} {ns ts : List Token} {p : Pos} (hn : V.Names (pairs.map (·.1)) ns)
      (he : V.Lists (pairs.map (·.2)) ts) : Simple ⟨.define, pairs⟩ (ns ++ .atom (.op .define) p :: ts)
  | assign {pairs : List (String × Expr)} {ns ts : List Token} {p : Pos} (hn : V.Names (pairs.map (·.1)) ns)
      (he : V.Lists (pairs.map (·.2)) ts) : Simple ⟨.assign, pairs⟩ (ns ++ .atom (.op .assign) p :: ts)
  | compound {op base : Operator} {x : String} {e : Expr} {ts : List Token} {p q : Pos}
      (ho : (op, base) ∈ [(Operator.addAssign, Operator.add), (.subAssign, .sub), (.mulAssign, .mul),
        (.quoAssign, .quo), (.remAssign, .rem)]) (hx : V.name x) (he : V.Writes e ts) :
      Simple ⟨.assign, [(x, .binary base (.var x) e)]⟩ (.atom (.ident x) p :: .atom (.op op) q :: ts)
  | step {op base : Operator} {x : String} {p q : Pos} (ho : (op, base) ∈ [(Operator.inc, Operator.add), (.dec, .sub)])
      (hx : V.name x) :
      Simple ⟨.assign, [(x, .binary base (.var x) (.int 1))]⟩ [.atom (.ident x) p, .atom (.op op) q]

/-- A declaration with values, as it stands behind `var`. -/
inductive Assignment.Spec : Assignment → List Token → Prop
  | untyped {pairs : List (String × Expr)} {ns ts : List Token} {q : Pos} (hn : V.Names (pairs.map (·.1)) ns)
      (he : V.Lists (pairs.map (·.2)) ts) : Spec ⟨.declare none, pairs⟩ (ns ++ .atom (.op .assign) q :: ts)
  | typed {pairs : List (String × Expr)} {ty : String} {ns ts : List Token} {q r : Pos}
      (hn : V.Names (pairs.map (·.1)) ns) (ht : V.type ty) (he : V.Lists (pairs.map (·.2)) ts) :
      Spec ⟨.declare (some ty), pairs⟩ (ns ++ .atom (.ident ty) r :: .atom (.op .assign) q :: ts)

/-- Declarations with semicolons between them, as they stand in parentheses. -/
inductive Assignment.Specs : List Assignment → List Token → Prop
  | nil {seps : List Token} (hs : Token.Semicolons seps) : Specs [] seps
  | cons {a : Assignment} {as : List Assignment} {seps ts us : List Token} (hs : Token.Semicolons seps)
      (h : a.Spec V ts) (hu : ∀ t ∈ us.head?, t.is .semicolon = true) (hr : Specs as us) :
      Specs (a :: as) (seps ++ (ts ++ us))

/-! ## Headers -/

/-- What stands between `if` and the braces. -/
inductive IfHeader : Option Assignment → Expr → List Token → Prop
  | cond {e : Expr} {ts : List Token} (h : V.Writes e ts) : IfHeader none e ts
  | init {a : Assignment} {e : Expr} {us ts : List Token} {p : Pos} (ha : a.Simple V us) (h : V.Writes e ts) :
      IfHeader (some a) e (us ++ .atom .semicolon p :: ts)

/-- What stands between `for` and the braces, if it is no range. What follows each turn declares nothing. -/
inductive LoopHeader : Option Assignment → Option Expr → Option Assignment → List Token → Prop
  | cond {e : Option Expr} {ts : List Token} (h : Optional V.Writes e ts) : LoopHeader none e none ts
  | clauses {a b : Option Assignment} {e : Option Expr} {us ts vs : List Token} {p q : Pos}
      (ha : Optional (Assignment.Simple V) a us) (he : Optional V.Writes e ts)
      (hb : Optional (Assignment.Simple V) b vs) (hk : ∀ b' ∈ b, b'.kind = .assign) :
      LoopHeader a e b (us ++ .atom .semicolon p :: (ts ++ .atom .semicolon q :: vs))

/-- What stands between `for` and `range`. -/
inductive RangeHeader : Option String → Bool → List Token → Prop
  | none : RangeHeader none false []
  | one {x : String} {d : Bool} {p q : Pos} (h : V.name x) : RangeHeader (if x = "_" then none else some x) d
      [.atom (.ident x) p, .atom (.op (if d then .define else .assign)) q]
  | two {x : String} {d : Bool} {p p' p'' q : Pos} (h : V.name x) : RangeHeader (if x = "_" then none else some x) d
      [.atom (.ident x) p, .atom .comma p', .atom (.ident "_") p'', .atom (.op (if d then .define else .assign)) q]

/-- What stands between `switch` and the braces. -/
inductive SwitchHeader : Option Assignment → Option Expr → List Token → Prop
  | tag {e : Option Expr} {ts : List Token} (h : Optional V.Writes e ts) : SwitchHeader none e ts
  | init {a : Option Assignment} {e : Option Expr} {us ts : List Token} {p : Pos}
      (ha : Optional (Assignment.Simple V) a us) (h : Optional V.Writes e ts) :
      SwitchHeader a e (us ++ .atom .semicolon p :: ts)

/-! ## Statements -/

/-- A statement that goes up to a semicolon. -/
inductive Stmt.Line : Bool → Bool → Stmt → List Token → Prop
  | store {b c : Bool} {a : Assignment} {ts : List Token} (h : a.Simple V ts) : Line b c (.store a) ts
  | var {b c : Bool} {a : Assignment} {ts : List Token} {p : Pos} (h : a.Spec V ts) :
      Line b c (.vars [a]) (.atom (.keyword .var) p :: ts)
  | vars {b c : Bool} {as : List Assignment} {inner : List Token} {p q : Pos} (h : Assignment.Specs V as inner) :
      Line b c (.vars as) [.atom (.keyword .var) p, .group .paren inner q]
  | brk {c : Bool} {p : Pos} : Line true c .brk [.atom (.keyword .break) p]
  | cont {b : Bool} {p : Pos} : Line b true .cont [.atom (.keyword .continue) p]

/-- What may stand behind `else`. -/
def Stmt.IsElse : Stmt → Prop
  | .block _ | .when .. | .branch .. => True
  | _ => False

/-- Whether there is no default among some clauses. -/
def Clauses.NoDefault : Clauses → Prop
  | .nil => True
  | .cons cases _ rest => cases.isSome ∧ rest.NoDefault

mutual

/-- A statement that ends with braces. -/
inductive Stmt.Forms : Bool → Bool → Stmt → List Token → Prop
  | block {b c : Bool} {body : Block} {inner : List Token} {p : Pos} (h : Block.Forms b c body inner) :
      Stmt.Forms b c (.block body) [.group .brace inner p]
  | when {b c : Bool} {init : Option Assignment} {cond : Expr} {yes : Block} {header inner : List Token} {p q : Pos}
      (hh : IfHeader V init cond header) (hy : Block.Forms b c yes inner) :
      Stmt.Forms b c (.when init cond yes) (.atom (.keyword .if) p :: (header ++ [.group .brace inner q]))
  | branch {b c : Bool} {init : Option Assignment} {cond : Expr} {yes : Block} {no : Stmt}
      {header inner rest : List Token} {p q r : Pos} (hh : IfHeader V init cond header) (hy : Block.Forms b c yes inner)
      (hn : Stmt.Forms b c no rest) (he : no.IsElse) : Stmt.Forms b c (.branch init cond yes no)
        (.atom (.keyword .if) p :: (header ++ .group .brace inner q :: .atom (.keyword .else) r :: rest))
  | loop {b c : Bool} {init post : Option Assignment} {cond : Option Expr} {body : Block} {header inner : List Token}
      {p q : Pos} (hh : LoopHeader V init cond post header) (hb : Block.Forms true true body inner) :
      Stmt.Forms b c (.loop init cond post body) (.atom (.keyword .for) p :: (header ++ [.group .brace inner q]))
  | range {b c d : Bool} {key : Option String} {limit : Expr} {body : Block} {header ts inner : List Token}
      {p q r : Pos} (hh : RangeHeader V key d header) (hl : V.Writes limit ts) (hb : Block.Forms true true body inner) :
      Stmt.Forms b c (.range key d limit body)
        (.atom (.keyword .for) p :: (header ++ .atom (.keyword .range) r :: ts ++ [.group .brace inner q]))
  | switch {b c : Bool} {init : Option Assignment} {tag : Option Expr} {clauses : Clauses}
      {header seps inner : List Token} {p q : Pos} (hh : SwitchHeader V init tag header) (hs : Token.Semicolons seps)
      (hc : Clauses.Forms c clauses inner) :
      Stmt.Forms b c (.switch init tag clauses)
        (.atom (.keyword .switch) p :: (header ++ [.group .brace (seps ++ inner) q]))

inductive Block.Forms : Bool → Bool → Block → List Token → Prop
  | nil {b c : Bool} {seps : List Token} (hs : Token.Semicolons seps) : Block.Forms b c .nil seps
  | line {b c : Bool} {first : Stmt} {rest : Block} {seps ts us : List Token} (hs : Token.Semicolons seps)
      (h : Stmt.Line V b c first ts) (hu : ∀ t ∈ us.head?, t.is .semicolon = true) (hr : Block.Forms b c rest us) :
      Block.Forms b c (.cons first rest) (seps ++ (ts ++ us))
  | compound {b c : Bool} {first : Stmt} {rest : Block} {seps ts us : List Token} (hs : Token.Semicolons seps)
      (h : Stmt.Forms b c first ts) (hr : Block.Forms b c rest us) :
      Block.Forms b c (.cons first rest) (seps ++ (ts ++ us))

/-- The clauses of a switch, of which one at most is the default. The line may end behind the colon. -/
inductive Clauses.Forms : Bool → Clauses → List Token → Prop
  | nil {c : Bool} : Clauses.Forms c .nil []
  | case {c : Bool} {cases : List Expr} {body : Block} {rest : Clauses} {ts seps inner us : List Token} {p q : Pos}
      (he : V.Lists cases ts) (hs : Token.Semicolons seps) (hb : Block.Forms true c body inner)
      (hh : ∀ t ∈ inner.head?, t.is .semicolon = false) (hr : Clauses.Forms c rest us) :
      Clauses.Forms c (.cons (some cases) body rest)
        (.atom (.keyword .case) p :: (ts ++ .atom .colon q :: (seps ++ (inner ++ us))))
  | default {c : Bool} {body : Block} {rest : Clauses} {seps inner us : List Token} {p q : Pos}
      (hs : Token.Semicolons seps) (hb : Block.Forms true c body inner)
      (hh : ∀ t ∈ inner.head?, t.is .semicolon = false) (hd : rest.NoDefault) (hr : Clauses.Forms c rest us) :
      Clauses.Forms c (.cons none body rest)
        (.atom (.keyword .default) p :: .atom .colon q :: (seps ++ (inner ++ us)))

end

end Goblet
