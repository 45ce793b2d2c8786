import Goblet.Host

/-!
# Symbols

What names mean. A name is kept under its scope, as `scope/name`; names known everywhere have no scope. A name is
looked up from the innermost scope outwards (`SymbolTable.resolve?`).
-/

namespace Goblet

/-- Functions built into the language. -/
inductive Builtin where
  | len | cap | append | make | delete | panic | new
deriving DecidableEq, Repr

namespace Builtin

def name : Builtin → String
  | .len => "len"
  | .cap => "cap"
  | .append => "append"
  | .make => "make"
  | .delete => "delete"
  | .panic => "panic"
  | .new => "new"

def all : List Builtin := [.len, .cap, .append, .make, .delete, .panic, .new]

end Builtin

/-- What kind of thing a name means. -/
inductive SymbolKind where
  /-- A value of the host, put into a data slot when first used. -/
  | value
  | type
  | label
  | const
  | var
  | func
  | pkg
  | builtin (b : Builtin)
deriving DecidableEq

/-- Where a variable is in memory. -/
inductive Slot where
  /-- From the start of memory. -/
  | global (i : Nat)
  /-- From the frame pointer; parameters are below it. -/
  | local (k : Int)
deriving DecidableEq

/-- Where what a name means is. -/
inductive Address where
  | global (i : Nat)
  | local (k : Int)
  /-- An instruction, for a label. -/
  | code (i : Nat)
  /-- Nowhere yet. -/
  | unresolved
deriving DecidableEq

def Address.slot? : Address → Option Slot
  | .global i => some (.global i)
  | .local k => some (.local k)
  | _ => none

def Slot.address : Slot → Address
  | .global i => .global i
  | .local k => .local k

/-- What a name means. -/
structure Symbol where
  kind : SymbolKind
  addr : Address
  ty : Ty
  /-- The value of a constant, a host function, or the entry of a compiled function. -/
  value : Option Value

namespace Symbol

def isLocal (s : Symbol) : Bool :=
  match s.addr with
  | .local _ => true
  | _ => false

end Symbol

/-- What names mean, each key once. -/
structure SymbolTable where
  entries : List (String × Symbol)

namespace SymbolTable

def empty : SymbolTable := ⟨[]⟩

instance : Inhabited SymbolTable := ⟨empty⟩

def add (t : SymbolTable) (key : String) (s : Symbol) : SymbolTable :=
  ⟨(key, s) :: t.entries.filter (·.1 ≠ key)⟩

def lookup? (t : SymbolTable) (key : String) : Option Symbol := t.entries.lookup key

def modify (t : SymbolTable) (key : String) (f : Symbol → Symbol) : SymbolTable :=
  ⟨t.entries.map fun e => if e.1 = key then (e.1, f e.2) else e⟩

def size (t : SymbolTable) : Nat := t.entries.length

/-! ## Scopes -/

def qualify (scope name : String) : String := if scope.isEmpty then name else scope ++ "/" ++ name

/-- The scopes around a scope, the innermost first. The characters of the scope are given last to first. -/
def outward : List Char → List String
  | [] => [""]
  | c :: cs =>
    if c = '/' then if cs.isEmpty then [""] else String.ofList cs.reverse :: outward cs
    else outward cs

/-- The scopes in which a name is looked up from a scope: itself, then without its last part, and so on to the one
without a name. -/
def enclosing (scope : String) : List String :=
  if scope.isEmpty then [""] else scope :: outward scope.toList.reverse

def resolve? (t : SymbolTable) (name scope : String) : Option (String × Symbol) :=
  (enclosing scope).findSome? fun s => (t.lookup? (qualify s name)).map (qualify s name, ·)

/-! ## Labels -/

/-- The key of a label, which may share its name with a variable. -/
def labelKey (name : String) : String := name ++ ":"

def label? (t : SymbolTable) (name : String) : Option Nat :=
  match t.lookup? (labelKey name) with
  | some ⟨_, .code i, _, _⟩ => some i
  | _ => none

def addLabel (t : SymbolTable) (name : String) (i : Nat) : SymbolTable :=
  t.add (labelKey name) ⟨.label, .code i, .unknown, none⟩

/-! ## Names known everywhere -/

def basicTypes : List (String × Ty) :=
  [("int", .int), ("int64", .int), ("byte", .int), ("rune", .int), ("float64", .float), ("float32", .float),
    ("string", .string), ("bool", .bool), ("any", .any)]

def basicConstants : List (String × Ty × Value) :=
  [("true", .bool, .bool true), ("false", .bool, .bool false), ("nil", .nil, .nil), ("iota", .int, .int 0)]

def predeclared (r : Registry) : SymbolTable :=
  let types := basicTypes.map fun (n, t) => (n, Symbol.mk .type .unresolved t none)
  let constants := basicConstants.map fun (n, t, v) => (n, Symbol.mk .const .unresolved t (some v))
  let builtins := Builtin.all.map fun b => (b.name, Symbol.mk (.builtin b) .unresolved .unknown none)
  let hosts := r.everywhere.reverse.map fun b => (b.name, Symbol.mk .value .unresolved b.ty (some b.value))
  (types ++ constants ++ builtins ++ hosts).foldl (fun t e => t.add e.1 e.2) empty

end SymbolTable

end Goblet
