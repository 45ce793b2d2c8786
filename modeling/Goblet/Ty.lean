import Goblet.Operation
import Goblet.TypeExpr

/-!
# Types

The types of values. `unknown` and `any` are dynamic: a value of such a type is checked when it is used. `Ty.accepts`
says what may be stored where, `Ty.identical` what may stand for each other inside a type.
-/

namespace Goblet

inductive Ty where
  /-- Not known before running. -/
  | unknown
  | nil
  | bool
  | int
  | float
  | string
  | slice (elem : Ty)
  | map (key value : Ty)
  | ptr (elem : Ty)
  /-- In a variadic function the last parameter is the slice of the remaining arguments. -/
  | func (params results : List Ty) (variadic : Bool)
  /-- A struct without a name has the empty name. -/
  | struct (name : String) (fields : List (String × Ty))
  | any

instance : Inhabited Ty := ⟨.unknown⟩

namespace Ty

/-! ## Equality -/

mutual

def beq : Ty → Ty → Bool
  | .unknown, .unknown => true
  | .nil, .nil => true
  | .bool, .bool => true
  | .int, .int => true
  | .float, .float => true
  | .string, .string => true
  | .slice a, .slice b => beq a b
  | .map k v, .map l w => beq k l && beq v w
  | .ptr a, .ptr b => beq a b
  | .func ps rs x, .func qs ss y => beqList ps qs && beqList rs ss && x == y
  | .struct n fs, .struct m gs => n == m && beqFields fs gs
  | .any, .any => true
  | _, _ => false

def beqList : List Ty → List Ty → Bool
  | [], [] => true
  | a :: as, b :: bs => beq a b && beqList as bs
  | _, _ => false

def beqFields : List (String × Ty) → List (String × Ty) → Bool
  | [], [] => true
  | (n, a) :: as, (m, b) :: bs => n == m && beq a b && beqFields as bs
  | _, _ => false

end

mutual

theorem beq_refl : ∀ a : Ty, beq a a = true
  | .unknown | .nil | .bool | .int | .float | .string | .any => rfl
  | .slice a => by rw [beq]; exact beq_refl a
  | .ptr a => by rw [beq]; exact beq_refl a
  | .map k v => by rw [beq, beq_refl k, beq_refl v]; rfl
  | .func ps rs _ => by rw [beq, beqList_refl ps, beqList_refl rs]; simp
  | .struct _ fs => by rw [beq, beqFields_refl fs]; simp

theorem beqList_refl : ∀ as : List Ty, beqList as as = true
  | [] => rfl
  | a :: as => by rw [beqList, beq_refl a, beqList_refl as]; rfl

theorem beqFields_refl : ∀ fs : List (String × Ty), beqFields fs fs = true
  | [] => rfl
  | (_, a) :: fs => by rw [beqFields, beq_refl a, beqFields_refl fs]; simp

end

mutual

theorem eq_of_beq : ∀ {a b : Ty}, beq a b = true → a = b
  | .unknown, b, h => by cases b <;> first | rfl | cases h
  | .nil, b, h => by cases b <;> first | rfl | cases h
  | .bool, b, h => by cases b <;> first | rfl | cases h
  | .int, b, h => by cases b <;> first | rfl | cases h
  | .float, b, h => by cases b <;> first | rfl | cases h
  | .string, b, h => by cases b <;> first | rfl | cases h
  | .any, b, h => by cases b <;> first | rfl | cases h
  | .slice a, b, h => by
    cases b with
    | slice b => exact congrArg _ (eq_of_beq (by simpa [beq] using h))
    | _ => cases h
  | .ptr a, b, h => by
    cases b with
    | ptr b => exact congrArg _ (eq_of_beq (by simpa [beq] using h))
    | _ => cases h
  | .map k v, b, h => by
    cases b with
    | map l w =>
      simp only [beq, Bool.and_eq_true] at h
      rw [eq_of_beq h.1, eq_of_beq h.2]
    | _ => cases h
  | .func ps rs x, b, h => by
    cases b with
    | func qs ss y =>
      simp only [beq, Bool.and_eq_true, beq_iff_eq] at h
      rw [eq_of_beqList h.1.1, eq_of_beqList h.1.2, h.2]
    | _ => cases h
  | .struct n fs, b, h => by
    cases b with
    | struct m gs =>
      simp only [beq, Bool.and_eq_true, beq_iff_eq] at h
      rw [h.1, eq_of_beqFields h.2]
    | _ => cases h

theorem eq_of_beqList : ∀ {as bs : List Ty}, beqList as bs = true → as = bs
  | [], bs, h => by cases bs <;> first | rfl | cases h
  | a :: as, bs, h => by
    cases bs with
    | nil => cases h
    | cons b bs =>
      simp only [beqList, Bool.and_eq_true] at h
      rw [eq_of_beq h.1, eq_of_beqList h.2]

theorem eq_of_beqFields : ∀ {fs gs : List (String × Ty)}, beqFields fs gs = true → fs = gs
  | [], gs, h => by cases gs <;> first | rfl | cases h
  | (n, a) :: fs, gs, h => by
    cases gs with
    | nil => cases h
    | cons g gs =>
      obtain ⟨m, b⟩ := g
      simp only [beqFields, Bool.and_eq_true, beq_iff_eq] at h
      rw [h.1.1, eq_of_beq h.1.2, eq_of_beqFields h.2]

end

instance : DecidableEq Ty := fun a b =>
  if h : beq a b = true then isTrue (eq_of_beq h) else isFalse fun e => h (e ▸ beq_refl a)

/-! ## Text -/

mutual

def text : Ty → String
  | .unknown => "?"
  | .nil => "nil"
  | .bool => "bool"
  | .int => "int"
  | .float => "float64"
  | .string => "string"
  | .slice e => "[]" ++ e.text
  | .map k v => "map[" ++ k.text ++ "]" ++ v.text
  | .ptr e => "*" ++ e.text
  | .func ps rs variadic =>
    "func(" ++ Text.joined ", " (if variadic then variadicTexts ps else texts ps) ++ ")" ++ resultText (texts rs)
  | .struct name fs =>
    if name.isEmpty then "struct \x7b" ++ Text.joined ";" (fieldTexts fs) ++ " \x7d" else name
  | .any => "any"

def texts : List Ty → List String
  | [] => []
  | t :: ts => t.text :: texts ts

def variadicTexts : List Ty → List String
  | [] => []
  | [.slice e] => ["..." ++ e.text]
  | [t] => ["..." ++ t.text]
  | t :: ts => t.text :: variadicTexts ts

def fieldTexts : List (String × Ty) → List String
  | [] => []
  | (n, t) :: fs => (" " ++ n ++ " " ++ t.text) :: fieldTexts fs

end

/-! ## Parts -/

def isNumeric : Ty → Bool
  | .int | .float => true
  | _ => false

def isDynamic : Ty → Bool
  | .unknown | .any => true
  | _ => false

def elem? : Ty → Option Ty
  | .slice e => some e
  | .ptr e => some e
  | .map _ v => some v
  | .string => some .int
  | .unknown => some .unknown
  | .any => some .unknown
  | _ => none

def findField (name : String) : List (String × Ty) → Option (Nat × Ty)
  | [] => none
  | (n, t) :: fs => if n = name then some (0, t) else (findField name fs).map fun (i, t) => (i + 1, t)

/-- The index and type of a field, of a struct or of the struct a pointer leads to. -/
def field? (name : String) : Ty → Option (Nat × Ty)
  | .struct _ fs => findField name fs
  | .ptr (.struct _ fs) => findField name fs
  | _ => none

/-! ## Assignability -/

/-- Whether two types may stand for each other inside a type. Structs of one name are alike. -/
def identical : Ty → Ty → Bool
  | a, b =>
    a == b || a.isDynamic || b.isDynamic ||
      match a, b with
      | .struct n _, .struct m _ => n == m
      | .slice a, .slice b => identical a b
      | .ptr a, .ptr b => identical a b
      | .map k v, .map l w => identical k l && identical v w
      | _, _ => false

/-- Whether a value of the second type may be stored where the first is wanted. An integer may be stored where a float
is wanted, and is converted then. -/
def accepts (dst src : Ty) : Bool :=
  dst == src || dst.isDynamic || src.isDynamic ||
    match dst, src with
    | .float, .int => true
    | .slice _, .nil => true
    | .map _ _, .nil => true
    | .ptr _, .nil => true
    | .func _ _ _, .nil => true
    | .struct n _, .struct m _ => n == m
    | .slice a, .slice b => identical a b
    | .ptr a, .ptr b => identical a b
    | .map k v, .map l w => identical k l && identical v w
    | _, _ => false

/-- Whether storing a value of the second type where the first is wanted converts it. -/
def needsFloat (dst src : Ty) : Bool := dst == .float && src == .int

/-! ## Operations -/

/-- An operation on types it is not defined for. -/
structure Undefined where
  op : BinOp
  left : Ty
  right : Ty

def Undefined.message (e : Undefined) : String :=
  "invalid operation: operator " ++ e.op.text ++ " not defined on " ++ e.left.text ++ " and " ++ e.right.text

def binaryResult (op : BinOp) (left right : Ty) : Except Undefined Ty :=
  if op.isComparison then
    let comparable := left.accepts right || right.accepts left
    let ordered := op == .eql || op == .neq || left.isNumeric || left.isDynamic || left == .string
    if comparable && ordered then .ok .bool else .error ⟨op, left, right⟩
  else if left.isDynamic then .ok right
  else if right.isDynamic then .ok left
  else
    match left, right with
    | .int, .int => .ok .int
    | .float, .int | .float, .float | .int, .float =>
      match op with
      | .add | .sub | .mul | .quo => .ok .float
      | _ => .error ⟨op, left, right⟩
    | .string, .string => if op = .add then .ok .string else .error ⟨op, left, right⟩
    | _, _ => .error ⟨op, left, right⟩

end Ty

/-- The type of a function. -/
structure FuncType where
  params : List Ty
  results : List Ty
  variadic : Bool
deriving DecidableEq

instance : Inhabited FuncType := ⟨⟨[], [], false⟩⟩

def FuncType.ty (f : FuncType) : Ty := .func f.params f.results f.variadic

def FuncType.text (f : FuncType) : String := f.ty.text

end Goblet
