import Mathlib.Algebra.Group.Int.Defs
import Mathlib.Algebra.Group.Nat.Defs
import Goblet.Value.Kernel

/-!
# Expressions over integers and booleans

The expressions whose variables hold integers and booleans, with their types (`Expr.type?`) and their values
(`Expr.eval`). The values are given by the arithmetic of the integers: a result is computed without bounds and then cut
to 64 bits (`Scalar.wrap`). An expression of a type has a value of that type, or traps (`Expr.eval_of_type`).
-/

namespace Goblet

open Option

/-- An integer or a boolean. -/
inductive Scalar where
  | int (n : Int64)
  | bool (b : Bool)
deriving DecidableEq

/-- Why an expression has no value. -/
inductive Trap where
  | divisionByZero
  | negativeShift
  /-- An operator does not fit its operands, or a name has no value. -/
  | illTyped
deriving DecidableEq

namespace Scalar

def value : Scalar → Value
  | .int n => .int n
  | .bool b => .bool b

def ty : Scalar → Ty
  | .int _ => .int
  | .bool _ => .bool

/-- The integer cut to 64 bits. -/
def wrap (n : Int) : Scalar := .int (Int64.ofInt n)

/-- An operator before an operand. -/
def unary (op : Operator) (x : Scalar) : Except Trap Scalar :=
  match op, x with
  | .add, .int n => .ok (.int n)
  | .sub, .int n => .ok (wrap (-n.toInt))
  | .xor, .int n => .ok (wrap (-n.toInt - 1))
  | .not, .bool b => .ok (.bool !b)
  | _, _ => .error .illTyped

/-- An operator between integers. -/
def onInts (op : Operator) (x y : Int64) : Except Trap Scalar :=
  let a := x.toInt
  let b := y.toInt
  match op with
  | .add => .ok (wrap (a + b))
  | .sub => .ok (wrap (a - b))
  | .mul => .ok (wrap (a * b))
  | .quo => if b = 0 then .error .divisionByZero else .ok (wrap (a.tdiv b))
  | .rem => if b = 0 then .error .divisionByZero else .ok (wrap (a.tmod b))
  | .and => .ok (.int (x &&& y))
  | .or => .ok (.int (x ||| y))
  | .xor => .ok (.int (x ^^^ y))
  | .shl => if b < 0 then .error .negativeShift else .ok (wrap (a * 2 ^ b.toNat))
  | .shr => if b < 0 then .error .negativeShift else .ok (wrap (a / 2 ^ b.toNat))
  | .eql => .ok (.bool (a = b))
  | .neq => .ok (.bool (a ≠ b))
  | .lss => .ok (.bool (a < b))
  | .leq => .ok (.bool (a ≤ b))
  | .gtr => .ok (.bool (b < a))
  | .geq => .ok (.bool (b ≤ a))
  | _ => .error .illTyped

/-- An operator between booleans, both of them already there. -/
def onBools (op : Operator) (x y : Bool) : Except Trap Scalar :=
  match op with
  | .eql => .ok (.bool (x == y))
  | .neq => .ok (.bool (x != y))
  | .land => .ok (.bool (x && y))
  | .lor => .ok (.bool (x || y))
  | _ => .error .illTyped

/-- An operator between operands. -/
def binary (op : Operator) (x y : Scalar) : Except Trap Scalar :=
  match x, y with
  | .int x, .int y => onInts op x y
  | .bool x, .bool y => onBools op x y
  | _, _ => .error .illTyped

/-- The value that settles an operator whatever its right operand is. -/
def decides (op : Operator) (x : Scalar) : Bool :=
  match op, x with
  | .land, .bool b => !b
  | .lor, .bool b => b
  | _, _ => false

end Scalar

/-- An expression. The literal `n` stands for an integer below `2 ^ 63`. -/
inductive Expr where
  | int (n : Nat)
  | bool (b : Bool)
  | var (name : String)
  | unary (op : Operator) (e : Expr)
  | binary (op : Operator) (a b : Expr)
deriving DecidableEq

namespace Expr

/-- The value of an expression, its parts taken from left to right. -/
def eval (env : String → Option Scalar) : Expr → Except Trap Scalar
  | .int n => .ok (Scalar.wrap n)
  | .bool b => .ok (.bool b)
  | .var x =>
    match env x with
    | some v => .ok v
    | none => .error .illTyped
  | .unary op e => do Scalar.unary op (← e.eval env)
  | .binary op a b => do
    let x ← a.eval env
    if x.decides op then return x else Scalar.binary op x (← b.eval env)

/-! ## Types -/

/-- The type of an operator before an operand. -/
def unaryType? (op : Operator) (t : Ty) : Option Ty :=
  match op, t with
  | .add, .int | .sub, .int | .xor, .int => some .int
  | .not, .bool => some .bool
  | _, _ => none

/-- The type of an operator between operands. -/
def binaryType? (op : Operator) (t u : Ty) : Option Ty :=
  match t, u with
  | .int, .int =>
    match op with
    | .add | .sub | .mul | .quo | .rem | .and | .or | .xor | .shl | .shr => some .int
    | .eql | .neq | .lss | .leq | .gtr | .geq => some .bool
    | _ => none
  | .bool, .bool =>
    match op with
    | .eql | .neq | .land | .lor => some .bool
    | _ => none
  | _, _ => none

/-- The type of an expression whose variables have these types. -/
def type? (types : String → Option Ty) : Expr → Option Ty
  | .int n => if n < 2 ^ 63 then some .int else none
  | .bool _ => some .bool
  | .var x => types x
  | .unary op e => do unaryType? op (← e.type? types)
  | .binary op a b => do binaryType? op (← a.type? types) (← b.type? types)

/-- The type that the compiler gives an operator between operands. The right operand of `&&` and `||` may be of any
type, and gives the type of the whole. -/
def compiledBinaryType? (op : Operator) (t u : Ty) : Option Ty :=
  match op with
  | .land | .lor => if t = .bool then some u else none
  | op => binaryType? op t u

/-- The type that the compiler gives an expression whose variables have these types. -/
def compiledType? (types : String → Option Ty) : Expr → Option Ty
  | .int n => if n < 2 ^ 63 then some .int else none
  | .bool _ => some .bool
  | .var x => types x
  | .unary op e => do unaryType? op (← e.compiledType? types)
  | .binary op a b => do compiledBinaryType? op (← a.compiledType? types) (← b.compiledType? types)

/-- The types of the values that variables have. -/
def typesOf (env : String → Option Scalar) : String → Option Ty := fun x => (env x).map Scalar.ty

/-- The integer or boolean that the result is, or a trap other than `illTyped`. -/
def HasType (t : Ty) : Except Trap Scalar → Prop
  | .ok v => v.ty = t
  | .error e => e ≠ .illTyped

end Expr

namespace Scalar

variable {op : Operator} {x : Scalar} {t : Ty}

theorem unary_of_type (h : Expr.unaryType? op x.ty = some t) : ∃ y, x.unary op = .ok y ∧ y.ty = t := by
  cases x <;> cases op <;> cases h <;> exact ⟨_, rfl, rfl⟩

theorem onInts_of_type {x y : Int64} (h : Expr.binaryType? op .int .int = some t) : Expr.HasType t (onInts op x y) := by
  cases op <;> cases h <;> first
    | rfl
    | (simp only [onInts]; split <;> simp [Expr.HasType, wrap, ty])

theorem onBools_of_type {x y : Bool} (h : Expr.binaryType? op .bool .bool = some t) :
    Expr.HasType t (onBools op x y) := by
  cases op <;> cases h <;> rfl

theorem binary_of_type {y : Scalar} (h : Expr.binaryType? op x.ty y.ty = some t) : Expr.HasType t (binary op x y) := by
  cases x <;> cases y <;> first | exact onInts_of_type h | exact onBools_of_type h | cases h

theorem ty_of_decides {u : Ty} (h : Expr.binaryType? op x.ty u = some t) (hd : x.decides op) : x.ty = t := by
  cases x with
  | int n => cases op <;> cases hd
  | bool b => cases op <;> cases u <;> cases h <;> rfl

end Scalar

namespace Expr

variable {env : String → Option Scalar} {t : Ty}
variable {op : Operator} {types : String → Option Ty} {a b : Expr}

variable {e : Expr}

theorem type?_unary
    (h : (Expr.unary op e).type? types = some t) : ∃ u, e.type? types = some u ∧ unaryType? op u = some t :=
  bind_eq_some_iff.mp h

theorem type?_binary (h : (Expr.binary op a b).type? types = some t) :
    ∃ u v, a.type? types = some u ∧ b.type? types = some v ∧ binaryType? op u v = some t := by
  obtain ⟨u, ha, h⟩ := bind_eq_some_iff.mp h
  obtain ⟨v, hb, h⟩ := bind_eq_some_iff.mp h
  exact ⟨u, v, ha, hb, h⟩

theorem compiledType?_unary (h : (Expr.unary op e).compiledType? types = some t) :
    ∃ u, e.compiledType? types = some u ∧ unaryType? op u = some t :=
  bind_eq_some_iff.mp h

theorem compiledType?_binary (h : (Expr.binary op a b).compiledType? types = some t) :
    ∃ u v, a.compiledType? types = some u ∧ b.compiledType? types = some v ∧ compiledBinaryType? op u v = some t := by
  obtain ⟨u, ha, h⟩ := bind_eq_some_iff.mp h
  obtain ⟨v, hb, h⟩ := bind_eq_some_iff.mp h
  exact ⟨u, v, ha, hb, h⟩

theorem compiledBinaryType?_of_binaryType? {u v : Ty} (h : binaryType? op t u = some v) :
    compiledBinaryType? op t u = some v := by
  cases op <;> first | exact h | (cases t <;> cases u <;> first | exact h | cases h)

theorem compiledType?_of_type? : ∀ {e : Expr} {t : Ty}, e.type? types = some t → e.compiledType? types = some t
  | .int _, _, h | .bool _, _, h | .var _, _, h => h
  | .unary op e, t, h => by
    obtain ⟨u, he, h⟩ := type?_unary h
    simp only [compiledType?, compiledType?_of_type? he]
    exact h
  | .binary op a b, t, h => by
    obtain ⟨u, v, ha, hb, h⟩ := type?_binary h
    simp only [compiledType?, compiledType?_of_type? ha, compiledType?_of_type? hb]
    exact compiledBinaryType?_of_binaryType? h

/-- Only integers and booleans are types of expressions over integers and booleans. -/
theorem eq_int_or_bool_of_compiledType? (hs : ∀ x u, types x = some u → u = .int ∨ u = .bool) :
    ∀ {e : Expr} {t : Ty}, e.compiledType? types = some t → t = .int ∨ t = .bool
  | .int n, t, h => by
    simp only [compiledType?] at h
    split at h
    · exact .inl (some.inj h).symm
    · cases h
  | .bool _, t, h => .inr (some.inj h).symm
  | .var x, t, h => hs x t h
  | .unary op e, t, h => by
    obtain ⟨u, -, h⟩ := compiledType?_unary h
    cases op <;> cases u <;> cases h <;> simp
  | .binary op a b, t, h => by
    obtain ⟨u, v, -, hb, h⟩ := compiledType?_binary h
    have hv := eq_int_or_bool_of_compiledType? hs hb
    have hbin : binaryType? op u v = some t → t = .int ∨ t = .bool := by
      intro h
      cases u <;> cases v <;> first | cases h | (cases op <;> cases h <;> simp)
    have hlogic : (if u = .bool then some v else none) = some t → t = .int ∨ t = .bool := by
      intro h
      split at h
      · exact some.inj h ▸ hv
      · cases h
    cases op <;> first | exact hbin h | exact hlogic h

/-- An expression of a type has a value of that type, unless it traps. -/
theorem eval_of_type : ∀ {e : Expr} {t : Ty}, e.type? (typesOf env) = some t → HasType t (e.eval env)
  | .int n, t, h => by
    simp only [type?] at h
    split at h
    · cases h; rfl
    · cases h
  | .bool _, t, h => some.inj h
  | .var x, t, h => by
    obtain ⟨v, hv, rfl⟩ := map_eq_some_iff.mp h
    simp only [eval, hv, HasType]
  | .unary op e, t, h => by
    obtain ⟨u, he, h⟩ := type?_unary h
    have ih := eval_of_type he
    simp only [eval]
    cases hv : e.eval env with
    | error err => rw [hv] at ih; exact ih
    | ok v =>
      rw [hv] at ih
      obtain ⟨w, hw, ht⟩ := Scalar.unary_of_type (ih ▸ h : unaryType? op v.ty = some t)
      show HasType t (Scalar.unary op v)
      rw [hw]
      exact ht
  | .binary op a b, t, h => by
    obtain ⟨u, v, ha, hb, h⟩ := type?_binary h
    have iha := eval_of_type ha
    have ihb := eval_of_type hb
    simp only [eval]
    cases hx : a.eval env with
    | error err => rw [hx] at iha; exact iha
    | ok x =>
      rw [hx] at iha
      obtain rfl : x.ty = u := iha
      show HasType t (if x.decides op then _ else _)
      split
      · next hd => exact Scalar.ty_of_decides h hd
      · cases hy : b.eval env with
        | error err => rw [hy] at ihb; exact ihb
        | ok y =>
          rw [hy] at ihb
          obtain rfl : y.ty = v := ihb
          exact Scalar.binary_of_type h

/-! ## Parts -/

/-- An expression within another, or the same. -/
inductive Part (e : Expr) : Expr → Prop
  | whole : Part e e
  | unary {op : Operator} {a : Expr} (h : Part e a) : Part e (.unary op a)
  | left {op : Operator} {a b : Expr} (h : Part e a) : Part e (.binary op a b)
  | right {op : Operator} {a b : Expr} (h : Part e b) : Part e (.binary op a b)

/-- The variables of an expression. -/
def vars : Expr → List String
  | .int _ | .bool _ => []
  | .var x => [x]
  | .unary _ e => e.vars
  | .binary _ a b => a.vars ++ b.vars

/-- The boolean literals of an expression. -/
def flags : Expr → List Bool
  | .int _ | .var _ => []
  | .bool b => [b]
  | .unary _ e => e.flags
  | .binary _ a b => a.flags ++ b.flags

theorem type?_vars : ∀ {e : Expr} {t : Ty}, e.type? types = some t → ∀ x ∈ e.vars, ∃ u, types x = some u
  | .int _, _, _, _, hx | .bool _, _, _, _, hx => nomatch hx
  | .var y, t, h, x, hx => by
    rw [List.mem_singleton.mp hx]
    exact ⟨t, h⟩
  | .unary op e, t, h, x, hx => by
    obtain ⟨u, he, -⟩ := type?_unary h
    exact type?_vars he x hx
  | .binary op a b, t, h, x, hx => by
    obtain ⟨u, v, ha, hb, -⟩ := type?_binary h
    rcases List.mem_append.mp hx with hx | hx
    · exact type?_vars ha x hx
    · exact type?_vars hb x hx

/-- Within the expression, one made of literals alone divides by zero or shifts by a negative amount. -/
def LiteralTrap (e : Expr) : Prop :=
  ∃ part trap, Part part e ∧ part.vars = [] ∧ part.eval (fun _ => none) = .error trap ∧ trap ≠ .illTyped

theorem LiteralTrap.unary {op : Operator} (h : e.LiteralTrap) : (Expr.unary op e).LiteralTrap := by
  obtain ⟨part, trap, hp, h⟩ := h
  exact ⟨part, trap, .unary hp, h⟩

theorem LiteralTrap.left (h : a.LiteralTrap) : (Expr.binary op a b).LiteralTrap := by
  obtain ⟨part, trap, hp, h⟩ := h
  exact ⟨part, trap, .left hp, h⟩

theorem LiteralTrap.right (h : b.LiteralTrap) : (Expr.binary op a b).LiteralTrap := by
  obtain ⟨part, trap, hp, h⟩ := h
  exact ⟨part, trap, .right hp, h⟩

end Expr

end Goblet
