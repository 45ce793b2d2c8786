import Goblet.Ty

/-!
# Values

What variables, elements and operands hold. Slices, maps and heap cells are kept in a store; a value only says which of
them it means. A struct is a value of its own and is copied with all its fields.
-/

namespace Goblet

/-- Keys of maps. -/
inductive Key where
  | bool (b : Bool)
  | int (n : Int64)
  | str (s : String)
deriving DecidableEq

namespace Key

/-- The order of keys: all booleans, then all integers, then all strings. -/
def lt : Key → Key → Bool
  | .bool a, .bool b => !a && b
  | .bool _, _ => true
  | .int _, .bool _ => false
  | .int a, .int b => a < b
  | .int _, .str _ => true
  | .str a, .str b => a < b
  | .str _, _ => false

def text : Key → String
  | .bool b => if b then "true" else "false"
  | .int n => toString n.toInt
  | .str s => s

end Key

/-- A window onto an array of the store. -/
structure Window where
  array : Nat
  off : Nat
  len : Nat
deriving DecidableEq

/-- A value. `nil` is also the zero value of slices, maps, pointers and functions. -/
inductive Value where
  | nil
  | bool (b : Bool)
  | int (n : Int64)
  | float (x : Double)
  | str (s : String)
  | slice (w : Window)
  | map (id : Nat)
  | struct (fields : List Value)
  /-- A pointer to a cell of memory. -/
  | ref (addr : Nat)
  /-- A pointer to a cell of the store. -/
  | heap (cell : Nat)
  /-- A compiled function that begins at this instruction. -/
  | func (entry : Nat)
  /-- A function of the host. -/
  | host (name : String)
  /-- What a range loop has still to visit. -/
  | items (rest : List (Key × Value))
  /-- A range loop over the integers below a limit. -/
  | count (next limit : Int64)
  | type (t : Ty)

instance : Inhabited Value := ⟨.nil⟩

namespace Value

def typeName : Value → String
  | .nil => "nil"
  | .bool _ => "bool"
  | .int _ => "int"
  | .float _ => "float64"
  | .str _ => "string"
  | .slice _ => "slice"
  | .map _ => "map"
  | .struct _ => "struct"
  | .ref _ | .heap _ => "pointer"
  | .func _ | .host _ => "func"
  | .items _ | .count .. => "iterator"
  | .type _ => "type"

def truth? : Value → Option Bool
  | .bool b => some b
  | _ => none

def number? : Value → Option Double
  | .int n => some (.ofInt n)
  | .float x => some x
  | _ => none

end Value

def Key.value : Key → Value
  | .bool b => .bool b
  | .int n => .int n
  | .str s => .str s

namespace Ty

mutual

def zero : Ty → Value
  | .bool => .bool false
  | .int => .int 0
  | .float => .float ⟨0⟩
  | .string => .str ""
  | .struct _ fs => .struct (zeros fs)
  | _ => .nil

def zeros : List (String × Ty) → List Value
  | [] => []
  | (_, t) :: fs => zero t :: zeros fs

end

end Ty

end Goblet
