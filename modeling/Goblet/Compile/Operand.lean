import Goblet.Symbol

/-!
# Operands

What the compiler knows of the operands that code has left on the stack: their types, and the value of those that are
constant. Types, packages, built-in functions and functions about to be called are operands too, but take no room on
the machine's stack.
-/

namespace Goblet

/-- A value known before running, with the index of the instruction that loads it. -/
structure Known where
  value : Value
  loadedAt : Nat

inductive Operand where
  | value (ty : Ty) (known : Option Known)
  /-- A pointer to a struct, as the base of an assignment. -/
  | place (ty : Ty)
  /-- A range loop in progress, with the types of its variables. -/
  | iter (key value : Ty)
  | type (ty : Ty)
  | package (path : String)
  /-- A function about to be called by name. -/
  | func (key : String) (sig : FuncType)
  | builtin (b : Builtin)

instance : Inhabited Operand := ⟨.type .unknown⟩

namespace Operand

def plain (ty : Ty) : Operand := .value ty none

/-- The number of cells the operand takes on the machine's stack. -/
def slots : Operand → Nat
  | .value .. | .place _ | .iter .. => 1
  | _ => 0

def ty? : Operand → Option Ty
  | .value ty _ => some ty
  | .place ty => some ty
  | _ => none

def known? : Operand → Option Known
  | .value _ known => known
  | _ => none

def describe : Operand → String
  | .value ty _ => "value of type " ++ ty.text
  | .place ty => "address of " ++ ty.text
  | .iter .. => "range iterator"
  | .type ty => "type " ++ ty.text
  | .package path => "package " ++ path
  | .func key _ => "function " ++ key
  | .builtin b => "builtin " ++ b.name

/-- The operand without what is known of its value. -/
def forget : Operand → Operand
  | .value ty _ => .value ty none
  | o => o

end Operand

/-- The operands on the stack, the top one first. -/
structure OperandStack where
  items : List Operand

namespace OperandStack

def empty : OperandStack := ⟨[]⟩

def push (s : OperandStack) (o : Operand) : OperandStack := ⟨o :: s.items⟩

def pop? (s : OperandStack) : Option (Operand × OperandStack) :=
  match s.items with
  | o :: os => some (o, ⟨os⟩)
  | [] => none

def popN? (s : OperandStack) (n : Nat) : Option (List Operand × OperandStack) :=
  if n ≤ s.items.length then some ((s.items.take n).reverse, ⟨s.items.drop n⟩) else none

def top? (s : OperandStack) : Option Operand := s.items.head?

def replaceTop? (s : OperandStack) (o : Operand) : Option OperandStack :=
  match s.items with
  | _ :: os => some ⟨o :: os⟩
  | [] => none

def size (s : OperandStack) : Nat := s.items.length

def slotsAbove (s : OperandStack) (height : Nat) : Nat :=
  (s.items.take (s.size - height)).foldr (fun o n => o.slots + n) 0

def truncate (s : OperandStack) (height : Nat) : OperandStack := ⟨s.items.drop (s.size - height)⟩

/-- The same operands, none of them known. This is what holds where several paths of code meet. -/
def forget (s : OperandStack) : OperandStack := ⟨s.items.map Operand.forget⟩

end OperandStack

end Goblet
