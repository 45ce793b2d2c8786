import Goblet.Compile.Expression

/-!
# Code for calls

Calls of functions by name, calls of function values, conversions and built-in functions.
-/

namespace Goblet.Compile

/-! ## Functions -/

/-- Checks the arguments of a call from the `k`-th on and makes floats of them where need be. The first `fixed` have
parameters of their own, the others are elements of `rest`. `above` counts the cells above the last one. -/
def coerceArgs (sig : FuncType) (fixed : Nat) (rest : Ty) (above : Nat) (p : Pos) :
    (k : Nat) → List Taken → Compile Unit
  | _, [] => return ()
  | k, v :: vs => do
    let want := if k < fixed then sig.params.getD k .unknown else rest
    coerce v want (vs.length + above) "argument" p
    coerceArgs sig fixed rest above p (k + 1) vs

def callArgs (sig : FuncType) (args : List Taken) (spread : Bool) (above : Nat) (p : Pos) : Compile Unit := do
  let n := sig.params.length
  let collects := sig.variadic && !spread
  let fixed := if collects then n - 1 else n
  if spread && !sig.variadic then fail .spreadFixed p
  else if args.length < fixed ∨ (!collects ∧ args.length ≠ n) then fail (.arity args.length n) p
  else
    let rest := ((sig.params.getLast?).bind Ty.elem?).getD .unknown
    coerceArgs sig fixed rest above p 0 args

def pushResults : List Ty → Compile Unit
  | [] => return ()
  | t :: ts => do
    pushValue (← complete t)
    pushResults ts

def entryOf? (key : String) : Compile (Option Nat) := do
  match (← lookup key).bind (·.value) with
  | some (.func entry) => return some entry
  | _ => return none

/-- Collects the arguments of a variadic call that have no parameters of their own. -/
def collectArgs (sig : FuncType) (argc : Nat) (spread : Bool) (p : Pos) : Compile Unit := do
  if sig.variadic && !spread then
    let fixed := sig.params.length - 1
    let slot ← typeSlot (sig.params.getD fixed .unknown)
    emit (.composite slot (argc - fixed) .positional) p

def callTo (site : Nat) (key : String) (p : Pos) : Compile Unit := do
  match ← entryOf? key with
  | some entry => patch site entry
  | none => modify fun s => { s with jumps := s.jumps ++ [⟨site, .func key, p⟩] }

def callNamed (key : String) (sig : FuncType) (argc : Nat) (spread : Bool) (p : Pos) : Compile Unit := do
  let args ← popValues argc p
  callArgs sig args spread 0 p
  collectArgs sig argc spread p
  callTo (← emitSite (.call 0) p) key p
  pushResults sig.results

def callValue (sig : FuncType) (argc : Nat) (spread : Bool) (p : Pos) : Compile Unit := do
  let args ← popValues argc p
  callArgs sig args spread 1 p
  let variadic := if sig.variadic then some (sig.params.length - 1) else none
  emit (.callX argc sig.results.length variadic spread) p
  pushResults sig.results

/-! ## Conversions -/

def isScalar : Ty → Bool
  | .bool | .int | .float | .string => true
  | _ => false

def convertConstant (v : Value) (dst : Ty) (p : Pos) : Compile Value := do
  let s ← get
  match s.store.convert v dst with
  | .ok (w, store) =>
    set { s with store := store }
    return w
  | .error e => fail (.conversion e) p

def convertible? (t : Ty) (v : Taken) : Compile (Option Known) :=
  if isScalar t then trailing? v.known else return none

def conversion (t : Ty) (argc : Nat) (spread : Bool) (p : Pos) : Compile Unit := do
  if argc ≠ 1 ∨ spread then fail (.conversionCount t) p
  else
    let v ← popValue p
    match ← convertible? t v with
    | some k =>
      let w ← convertConstant k.value t p
      cutCode k.loadedAt
      constant w t p
    | none =>
      let slot ← typeSlot t
      emit (.convert slot 0) p
      pushValue t

/-! ## Built-in functions -/

def checkArity (b : Builtin) (argc least : Nat) (most : Option Nat) (p : Pos) : Compile Unit :=
  if argc < least then fail (.builtinArity true b argc) p
  else
    match most with
    | some n => if n < argc then fail (.builtinArity false b argc) p else return ()
    | none => return ()

def hasExtent (b : Builtin) : Ty → Bool
  | .slice _ => true
  | .string | .map _ _ => b = .len
  | t => t.isDynamic

/-- `len` and `cap`. The length of a constant text is a constant. -/
def extent (b : Builtin) (argc : Nat) (p : Pos) : Compile Unit := do
  checkArity b argc 1 (some 1) p
  let v ← popValue p
  if !hasExtent b v.ty then fail (.builtinOperand v.ty b) p
  else
    match ← trailing? v.known with
    | some ⟨.str s, i⟩ =>
      cutCode i
      constant (.int (Int64.ofNat (Text.byteLength s))) .int p
    | _ =>
      emit (if b = .len then .len else .cap) p
      pushValue .int

def coerceElements (elem : Ty) (p : Pos) : List Taken → Compile Unit
  | [] => return ()
  | v :: vs => do
    coerce v elem vs.length "append" p
    coerceElements elem p vs

def appendElem (base : Ty) (p : Pos) : Compile Ty :=
  match base with
  | .slice e => return e
  | t => if t.isDynamic then return .unknown else fail (.appendBase t) p

/-- Checks what is appended to a value of type `base` with elements `elem`. -/
def checkAppended (base elem : Ty) (more : List Taken) (spread : Bool) (p : Pos) : Compile Unit := do
  if spread then
    match more with
    | [extra] =>
      if !base.accepts extra.ty && !(extra.ty = .string ∧ elem = .int) then
        fail (.cannotUse ("value of type " ++ extra.ty.text) base "append") p
    | _ => fail .appendSpread p
  else coerceElements elem p more

/-- `append` -/
def append (argc : Nat) (spread : Bool) (p : Pos) : Compile Unit := do
  checkArity .append argc 1 none p
  match ← popValues argc p with
  | [] => fail .underflow p
  | first :: more =>
    let base ← complete first.ty
    checkAppended base (← appendElem base p) more spread p
    emit (.append (argc - 1) spread) p
    pushValue base

/-- Checks the sizes given to `make`. -/
def checkSizes (p : Pos) : List Operand → Compile Unit
  | [] => return ()
  | o :: os => do
    let v ← expectValue o p
    if v.ty = .int ∨ v.ty.isDynamic then checkSizes p os else fail (.makeSize v.ty) p

/-- `make` of a type. -/
def makeOf (t : Ty) (sizes : List Operand) (p : Pos) : Compile Unit := do
  checkSizes p sizes
  let slot ← typeSlot t
  emit (.make slot sizes.length) p
  pushValue t

/-- `make` -/
def make (argc : Nat) (p : Pos) : Compile Unit := do
  checkArity .make argc 1 (some 3) p
  match ← popOperands argc p with
  | .type (.slice e) :: sizes => if sizes.isEmpty then fail (.makeCount (.slice e)) p else makeOf (.slice e) sizes p
  | .type (.map k v) :: sizes => makeOf (.map k v) sizes p
  | o :: _ => fail (.notMakeable o.describe) p
  | [] => fail .makeNothing p

/-- `new` -/
def new (argc : Nat) (p : Pos) : Compile Unit := do
  checkArity .new argc 1 (some 1) p
  match ← popOperand p with
  | .type t =>
    let slot ← typeSlot t
    emit (.new slot) p
    emit .box p
    pushValue (.ptr t)
  | o => fail (.operandNotType o.describe) p

def coerceKey (t : Ty) (key : Taken) (p : Pos) : Compile Unit :=
  match t with
  | .map k _ => coerce key k 0 "argument to delete" p
  | t => if t.isDynamic then return () else fail (.notMap t) p

/-- `delete` -/
def delete (argc : Nat) (p : Pos) : Compile Unit := do
  checkArity .delete argc 2 (some 2) p
  match ← popValues 2 p with
  | [m, key] =>
    coerceKey (← complete m.ty) key p
    emit .delete p
  | _ => fail .underflow p

def callBuiltin (b : Builtin) (argc : Nat) (spread : Bool) (p : Pos) : Compile Unit := do
  if spread ∧ b ≠ .append then fail (.builtinSpread b) p
  else
    match b with
    | .len | .cap => extent b argc p
    | .append => append argc spread p
    | .make => make argc p
    | .new => new argc p
    | .delete => delete argc p
    | .panic =>
      checkArity b argc 1 (some 1) p
      let _ ← popValue p
      emit .panic p

def call (argc : Nat) (spread : Bool) (p : Pos) : Compile Unit := do
  match ← popOperand p with
  | .func key sig => callNamed key sig argc spread p
  | .value (.func params results variadic) _ => callValue ⟨params, results, variadic⟩ argc spread p
  | .type t => conversion t argc spread p
  | .builtin b => callBuiltin b argc spread p
  | o => fail (.notCallable o.describe) p

end Goblet.Compile
