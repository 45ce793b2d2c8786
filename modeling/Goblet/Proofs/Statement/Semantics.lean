import Goblet.Proofs.Scalar.Expr

/-!
# Statements over integers and booleans

The structured statements whose variables hold integers and booleans, and what they do (`Block.means`). A statement
begins in some scopes and ends in them, normally, at a `break` or `continue` that it does not catch itself, or at a
trap. Its meaning is the relation between the two, so a statement that goes on for ever means nothing. A block has a
scope of its own, and whichever way it ends that scope is gone.
-/

namespace Goblet

/-! ## Scopes -/

/-- The variables of a scope and what they hold. -/
abbrev Scope := String → Option Scalar

/-- The scopes around a statement, the innermost first. The last one holds the global variables. -/
abbrev Env := List Scope

/-- The scope with another value of a variable. -/
def Scope.set (scope : Scope) (x : String) (v : Scalar) : Scope := fun y => if y = x then some v else scope y

namespace Env

/-- What the innermost variable of a name holds. -/
def value (env : Env) (x : String) : Option Scalar := env.findSome? (· x)

/-- Declares a variable in the innermost scope; one that is there takes the value. -/
def define (x : String) (v : Scalar) : Env → Option Env
  | [] => none
  | scope :: env => some (scope.set x v :: env)

/-- Stores into the innermost variable of a name. -/
def assign (x : String) (v : Scalar) : Env → Option Env
  | [] => none
  | scope :: env => if (scope x).isSome then some (scope.set x v :: env) else (assign x v env).map (scope :: ·)

end Env

/-- How the targets of a statement are stored into. -/
inductive Storing where
  /-- `:=` -/
  | define
  /-- `=` -/
  | assign
  /-- `var`, with the type if one is written. -/
  | declare (ty : Option String)

/-- Stores into a name. The blank name takes any value and holds none. -/
def Env.put (k : Storing) (x : String) (v : Scalar) (env : Env) : Option Env :=
  if x = "_" then some env
  else
    match k with
    | .assign => env.assign x v
    | _ => env.define x v

/-- Stores into several names, one after another. -/
def Env.putAll (k : Storing) : List (String × Scalar) → Env → Option Env
  | [], env => some env
  | (x, v) :: rest, env => (env.put k x v).bind (putAll k rest)

/-! ## Syntax -/

/-- Targets, each with its value. `x op= e` stands for `x = x op e`, and `x++` for `x = x + 1`. -/
structure Assignment where
  kind : Storing
  pairs : List (String × Expr)

namespace Assignment

def targets (a : Assignment) : List String := a.pairs.map (·.1)

def values (a : Assignment) : List Expr := a.pairs.map (·.2)

end Assignment

mutual

inductive Stmt where
  | store (a : Assignment)
  /-- `var`, with one declaration or several in parentheses. -/
  | vars (as : List Assignment)
  | block (body : Block)
  /-- `if` without `else`. -/
  | when (init : Option Assignment) (cond : Expr) (yes : Block)
  /-- `if` with `else`, behind which stands a block or another `if`. -/
  | branch (init : Option Assignment) (cond : Expr) (yes : Block) (no : Stmt)
  /-- A loop; without a condition it goes on. -/
  | loop (init : Option Assignment) (cond : Option Expr) (post : Option Assignment) (body : Block)
  /-- A loop over the integers below a limit; `define` says whether the name is declared there. -/
  | range (key : Option String) (define : Bool) (limit : Expr) (body : Block)
  | switch (init : Option Assignment) (tag : Option Expr) (clauses : Clauses)
  | brk
  | cont

inductive Block where
  | nil
  | cons (first : Stmt) (rest : Block)

/-- The clauses of a switch; the default has no cases. -/
inductive Clauses where
  | nil
  | cons (cases : Option (List Expr)) (body : Block) (rest : Clauses)

end

/-- The label of the default, where each clause has one. -/
def Clauses.defaultLabel : Clauses → List String → Option String
  | .cons (some _) _ rest, _ :: ls => rest.defaultLabel ls
  | .cons none _ _, l :: _ => some l
  | _, _ => none

/-! ## Meanings -/

/-- How a statement ends. -/
inductive Completion where
  | normal
  | brk
  | cont
  | trap (t : Trap)

/-- Whether a loop goes on after its body has ended so. -/
def Completion.GoesOn (r : Completion) : Prop := r = .normal ∨ r = .cont

/-- How what catches a `break` ends. -/
def Completion.caught : Completion → Completion
  | .brk => .normal
  | r => r

/-- The scopes before, how it ends, and the scopes after. -/
abbrev Meaning := Env → Completion → Env → Prop

namespace Meaning

/-- Nothing. -/
def skip : Meaning := fun env r env' => r = .normal ∧ env' = env

/-- The second follows if the first ends normally. -/
def seq (M N : Meaning) : Meaning := fun env r env' =>
  (∃ mid, M env .normal mid ∧ N mid r env') ∨ r ≠ .normal ∧ M env r env'

/-- In a scope of its own. -/
def inScope (M : Meaning) : Meaning := fun env r env' => ∃ scope, M ((fun _ => none) :: env) r (scope :: env')

/-- Goes on with a result, unless it is a trap. -/
def given (x : Except Trap α) (M : α → Meaning) : Meaning := fun env r env' =>
  match x with
  | .ok a => M a env r env'
  | .error t => r = .trap t ∧ env' = env

/-- One of two, as a condition says. -/
def branch (cond : Env → Except Trap Bool) (yes no : Meaning) : Meaning := fun env =>
  given (cond env) (fun b => if b then yes else no) env

/-- A `break` leads behind it. -/
def breakable (M : Meaning) : Meaning := fun env r env' => ∃ r0, M env r0 env' ∧ r = r0.caught

/-- Turns of a loop: a `continue` leads to what follows each turn, a `break` behind the loop. -/
inductive Turns (cond : Env → Except Trap Bool) (body post : Meaning) : Env → Completion → Env → Prop
  | done {env : Env} (hc : cond env = .ok false) : Turns cond body post env .normal env
  | trap {env : Env} {t : Trap} (hc : cond env = .error t) : Turns cond body post env (.trap t) env
  | brk {env env' : Env} (hc : cond env = .ok true) (hb : body env .brk env') : Turns cond body post env .normal env'
  | stop {env env' : Env} {t : Trap} (hc : cond env = .ok true) (hb : body env (.trap t) env') :
      Turns cond body post env (.trap t) env'
  | stopPost {env mid env' : Env} {r : Completion} {t : Trap} (hc : cond env = .ok true) (hb : body env r mid)
      (hr : r.GoesOn) (hp : post mid (.trap t) env') : Turns cond body post env (.trap t) env'
  | turn {env mid next env' : Env} {r r' : Completion} (hc : cond env = .ok true) (hb : body env r mid) (hr : r.GoesOn)
      (hp : post mid .normal next) (h : Turns cond body post next r' env') : Turns cond body post env r' env'

/-- Laps of a loop over the integers from `i` up to a limit; `start` stores the integer of each lap. -/
inductive Laps (start : Int64 → Meaning) (body : Meaning) (limit : Int64) : Int64 → Env → Completion → Env → Prop
  | done {i : Int64} {env : Env} (hi : ¬i < limit) : Laps start body limit i env .normal env
  | brk {i : Int64} {env mid env' : Env} (hi : i < limit) (hs : start i env .normal mid) (hb : body mid .brk env') :
      Laps start body limit i env .normal env'
  | stop {i : Int64} {env mid env' : Env} {t : Trap} (hi : i < limit) (hs : start i env .normal mid)
      (hb : body mid (.trap t) env') : Laps start body limit i env (.trap t) env'
  | lap {i : Int64} {env mid next env' : Env} {r r' : Completion} (hi : i < limit) (hs : start i env .normal mid)
      (hb : body mid r next) (hr : r.GoesOn) (h : Laps start body limit (i + 1) next r' env') :
      Laps start body limit i env r' env'

end Meaning

/-! ## What statements mean -/

namespace Scalar

def truth : Scalar → Except Trap Bool
  | .bool b => .ok b
  | .int _ => .error .illTyped

def number : Scalar → Except Trap Int64
  | .int n => .ok n
  | .bool _ => .error .illTyped

end Scalar

/-- The values of expressions, from left to right. -/
def Expr.evalAll (env : String → Option Scalar) : List Expr → Except Trap (List Scalar)
  | [] => .ok []
  | e :: es => do return (← e.eval env) :: (← evalAll env es)

/-- Whether a condition holds. -/
def Expr.truth (e : Expr) (env : Env) : Except Trap Bool := e.eval env.value >>= Scalar.truth

/-- Whether a case of a switch is met: it is equal to the tag, or holds if there is none. -/
def Expr.meets (tag : Option Scalar) (e : Expr) (env : Env) : Except Trap Bool :=
  match tag with
  | some v => do (← Scalar.binary .eql v (← e.eval env.value)).truth
  | none => e.truth env

/-- All values are there before the first is stored. They are stored from the last to the first, which makes a
difference only where a name stands twice. -/
def Assignment.means (a : Assignment) : Meaning := fun env =>
  Meaning.given (Expr.evalAll env.value a.values) (fun vs _ r env' =>
    match env.putAll a.kind (a.targets.zip vs).reverse with
    | some after => r = .normal ∧ env' = after
    | none => r = .trap .illTyped ∧ env' = env) env

/-- One after another. -/
def Assignment.meansAll : List Assignment → Meaning
  | [] => .skip
  | a :: as => .seq a.means (meansAll as)

/-- A statement that may be missing. -/
def Assignment.maybe : Option Assignment → Meaning
  | some a => a.means
  | none => .skip

namespace Meaning

/-- A condition that may be missing. -/
def holds (cond : Option Expr) (env : Env) : Except Trap Bool :=
  match cond with
  | some e => e.truth env
  | none => .ok true

/-- Stores the integer of a lap, if it has a name. -/
def lapStart (key : Option String) (define : Bool) (i : Int64) : Meaning := fun env r env' =>
  match key with
  | some x => r = .normal ∧ env.put (if define then .define else .assign) x (.int i) = some env'
  | none => r = .normal ∧ env' = env

/-- The tag of a switch, if it has one, and what follows. -/
def tagged (tag : Option Expr) (M : Option Scalar → Meaning) : Meaning := fun env =>
  match tag with
  | some e => given (e.eval env.value) (fun v => M (some v)) env
  | none => M none env

/-- The first if one of some cases is met, else the second. The cases are tried in order. -/
def anyOf (tag : Option Scalar) (yes no : Meaning) : List Expr → Meaning
  | [] => no
  | e :: es => branch (e.meets tag) yes (anyOf tag yes no es)

end Meaning

mutual

/-- What a statement means. -/
def Stmt.means : Stmt → Meaning
  | .store a => a.means
  | .vars as => Assignment.meansAll as
  | .block body => .inScope body.means
  | .when init cond yes => .inScope (.seq (Assignment.maybe init) (.branch cond.truth (.inScope yes.means) .skip))
  | .branch init cond yes no => .inScope (.seq (Assignment.maybe init)
      (.branch cond.truth (.inScope yes.means) no.means))
  | .loop init cond post body =>
    .inScope (.seq (Assignment.maybe init) (Meaning.Turns (Meaning.holds cond) (.inScope body.means)
      (Assignment.maybe post)))
  | .range key define limit body => .inScope fun env =>
    Meaning.given (limit.eval env.value >>= Scalar.number)
      (fun n => Meaning.Laps (Meaning.lapStart key define) (.inScope body.means) n 0) env
  | .switch init tag clauses =>
    .inScope (.seq (Assignment.maybe init) (.tagged tag fun v => .breakable (clauses.means v clauses.other)))
  | .brk => fun env r env' => r = .brk ∧ env' = env
  | .cont => fun env r env' => r = .cont ∧ env' = env

/-- Statements one after another. -/
def Block.means : Block → Meaning
  | .nil => .skip
  | .cons first rest => .seq first.means rest.means

/-- The body of the first clause with a case that is met, or else `other`. -/
def Clauses.means (tag : Option Scalar) (other : Meaning) : Clauses → Meaning
  | .nil => other
  | .cons (some cases) body rest => .anyOf tag (.inScope body.means) (rest.means tag other) cases
  | .cons none _ rest => rest.means tag other

/-- The body of the default, if there is one. -/
def Clauses.other : Clauses → Meaning
  | .nil => .skip
  | .cons (some _) _ rest => rest.other
  | .cons none body _ => .inScope body.means

end

end Goblet
