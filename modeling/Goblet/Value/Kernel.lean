import Goblet.Value

/-!
# Operations on values

Integers wrap around at 64 bits and division goes toward zero. An integer beside a float counts as a float.
-/

namespace Goblet

/-- Why an operation on values fails. -/
inductive ValueError where
  | divisionByZero
  | negativeShift
  | mismatch (op : BinOp) (left right : String)
  | unaryMismatch (op : UnOp) (operand : String)
  | conversion (src : String) (dst : Ty)
  | mapKey (kind : String)
  | notIterable (kind : String)
  | uncomparable (kind : String)

def ValueError.message : ValueError → String
  | .divisionByZero => "integer divide by zero"
  | .negativeShift => "negative shift amount"
  | .mismatch op left right => "invalid operation: " ++ left ++ " " ++ op.text ++ " " ++ right
  | .unaryMismatch op operand => "invalid operation: " ++ op.text ++ operand
  | .conversion src dst => "cannot convert " ++ src ++ " to " ++ dst.text
  | .mapKey kind => "invalid map key of type " ++ kind
  | .notIterable kind => "cannot range over " ++ kind
  | .uncomparable kind => kind ++ " can only be compared to nil"

namespace Value

def key : Value → Except ValueError Key
  | .bool b => .ok (.bool b)
  | .int n => .ok (.int n)
  | .str s => .ok (.str s)
  | v => .error (.mapKey v.typeName)

/-! ## Equality -/

/-- Comparison with `nil`. -/
def equalsNil : Value → Except ValueError Bool
  | .nil => .ok true
  | .slice _ | .map _ | .ref _ | .heap _ | .func _ | .host _ => .ok false
  | v => .error (.uncomparable v.typeName)

mutual

/-- The comparison `==`. Slices, maps and functions compare only with `nil`. -/
def equals : Value → Value → Except ValueError Bool
  | .nil, v => equalsNil v
  | v, .nil => equalsNil v
  | .bool a, .bool b => .ok (a == b)
  | .int a, .int b => .ok (a == b)
  | .int a, .float b => .ok ((Double.ofInt a).eqv b)
  | .float a, .int b => .ok (a.eqv (.ofInt b))
  | .float a, .float b => .ok (a.eqv b)
  | .str a, .str b => .ok (a == b)
  | .ref a, .ref b => .ok (a == b)
  | .heap a, .heap b => .ok (a == b)
  | .ref _, .heap _ => .ok false
  | .heap _, .ref _ => .ok false
  | .struct as, .struct bs => if as.length = bs.length then equalsAll as bs else .ok false
  | .type a, .type b => .ok (a == b)
  | .slice _, _ => .error (.uncomparable "slice")
  | .map _, _ => .error (.uncomparable "map")
  | .func _, _ => .error (.uncomparable "func")
  | .host _, _ => .error (.uncomparable "func")
  | a, b => .error (.mismatch .eql a.typeName b.typeName)

/-- Compares fields in order up to the first difference. -/
def equalsAll : List Value → List Value → Except ValueError Bool
  | a :: as, b :: bs => do
    if ← equals a b then equalsAll as bs else return false
  | _, _ => .ok true

end

/-! ## Operations -/

def intOp (op : BinOp) (x y : Int64) : Except ValueError Int64 :=
  match op with
  | .add => .ok (x + y)
  | .sub => .ok (x - y)
  | .mul => .ok (x * y)
  | .quo => if y = 0 then .error .divisionByZero else .ok (x / y)
  | .rem => if y = 0 then .error .divisionByZero else .ok (x % y)
  | .and => .ok (x &&& y)
  | .or => .ok (x ||| y)
  | .xor => .ok (x ^^^ y)
  | .shl => if y < 0 then .error .negativeShift else .ok (if 64 ≤ y then 0 else x <<< y)
  | .shr =>
    if y < 0 then .error .negativeShift
    else .ok (if 64 ≤ y then if x < 0 then -1 else 0 else x >>> y)
  | _ => .error (.mismatch op "int" "int")

def floatOp? (op : BinOp) (x y : Double) : Option Double :=
  match op with
  | .add => some (x.map₂ (· + ·) y)
  | .sub => some (x.map₂ (· - ·) y)
  | .mul => some (x.map₂ (· * ·) y)
  | .quo => some (x.map₂ (· / ·) y)
  | _ => none

/-- Comparisons of order. Nothing is ordered with a float that is not a number. -/
def order (op : BinOp) (a b : Value) : Except ValueError Bool :=
  match a, b with
  | .int x, .int y => .ok (op.ordered (x < y) (x == y) (y < x))
  | .str x, .str y => .ok (op.ordered (x < y) (x == y) (y < x))
  | a, b =>
    match a.number?, b.number? with
    | some x, some y => .ok (op.ordered (x.lt y) (x.eqv y) (y.lt x))
    | _, _ => .error (.mismatch op a.typeName b.typeName)

def compare (op : BinOp) (a b : Value) : Except ValueError Bool :=
  match op with
  | .eql => equals a b
  | .neq => (equals a b).map not
  | op => order op a b

def binary (op : BinOp) (a b : Value) : Except ValueError Value :=
  if op.isComparison then (compare op a b).map .bool
  else
    match a, b with
    | .int x, .int y => (intOp op x y).map .int
    | .str x, .str y => if op = .add then .ok (.str (x ++ y)) else .error (.mismatch op "string" "string")
    | a, b =>
      match a.number?, b.number? with
      | some x, some y =>
        match floatOp? op x y with
        | some z => .ok (.float z)
        | none => .error (.mismatch op a.typeName b.typeName)
      | _, _ => .error (.mismatch op a.typeName b.typeName)

def unary (op : UnOp) (v : Value) : Except ValueError Value :=
  match op, v with
  | .neg, .int n => .ok (.int (-n))
  | .neg, .float x => .ok (.float x.neg)
  | .not, .bool b => .ok (.bool !b)
  | .bitNot, .int n => .ok (.int (~~~n))
  | op, v => .error (.unaryMismatch op v.typeName)

end Value

end Goblet
