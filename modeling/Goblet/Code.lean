import Goblet.Symbol

/-!
# Code

Instructions of the stack machine, and programs: code, a data segment, and where top-level code begins. Both segments
only grow, so what refers to them stays valid. Jumps are relative to the instruction that jumps; an operand `ty` is the
index of a type in the data segment.
-/

namespace Goblet

/-- How the elements of a composite value lie on the stack. -/
inductive Layout where
  | positional
  /-- Fields by index, in the order of the stack. -/
  | fields (order : List Nat)
  /-- Entries, each a key and a value. -/
  | pairs
deriving DecidableEq

inductive Op where
  | push (v : Value)
  | pop (n : Nat)
  /-- Makes room for the local variables of a frame. -/
  | grow (n : Nat)
  | get (s : Slot)
  | set (s : Slot)
  | addr (s : Slot)
  | deref
  | derefSet
  /-- The zero value of a type. -/
  | new (ty : Nat)
  /-- Moves the top value into a new heap cell and leaves a pointer to it. -/
  | box
  | binary (op : BinOp)
  | unary (op : UnOp)
  | addi (k : Int64)
  | subi (k : Int64)
  | loweri (k : Int64)
  /-- Converts the value that lies `depth` below the top. -/
  | convert (ty depth : Nat)
  | jump (rel : Int)
  | jumpTrue (rel : Int)
  | jumpFalse (rel : Int)
  /-- Jumps and keeps the top if it is true, else drops it. -/
  | jumpSetTrue (rel : Int)
  | jumpSetFalse (rel : Int)
  | call (rel : Int)
  /-- Calls the function on top; `variadic` is the number of fixed parameters of a variadic one. -/
  | callX (argc results : Nat) (variadic : Option Nat) (spread : Bool)
  | ret (results params : Nat)
  | missingReturn
  | exit
  | index
  /-- Looks up a map; the zero value of a type stands for what is not there. -/
  | mapIndex (ty : Nat)
  | indexSet
  /-- Stores into a map, which must not be `nil`. -/
  | mapSet
  | slice (low high : Bool)
  | field (i : Nat)
  /-- Stores the top value through the pointer below it, along fields. -/
  | fieldSet (path : List Nat)
  | composite (ty len : Nat) (layout : Layout)
  | len
  | cap
  | append (count : Nat) (spread : Bool)
  | make (ty argc : Nat)
  | delete
  | panic
  | range
  /-- Takes the next item of the range on top, or jumps when there is none. -/
  | next (key value : Option Slot) (rel : Int)

namespace Op

def offset? : Op → Option Int
  | .jump o | .jumpTrue o | .jumpFalse o | .jumpSetTrue o | .jumpSetFalse o | .call o => some o
  | .next _ _ o => some o
  | _ => none

/-- The same jump with another distance; none if it is no jump. -/
def withOffset? (rel : Int) : Op → Option Op
  | .jump _ => some (.jump rel)
  | .jumpTrue _ => some (.jumpTrue rel)
  | .jumpFalse _ => some (.jumpFalse rel)
  | .jumpSetTrue _ => some (.jumpSetTrue rel)
  | .jumpSetFalse _ => some (.jumpSetFalse rel)
  | .call _ => some (.call rel)
  | .next k v _ => some (.next k v rel)
  | _ => none

end Op

/-- An instruction with the place it came from. -/
structure Instr where
  op : Op
  pos : Pos

instance : Inhabited Instr := ⟨⟨.exit, .none⟩⟩

structure Program where
  code : Array Instr
  /-- Global variables, functions, texts and the types that instructions refer to. -/
  data : Array Value
  /-- Where top-level code begins. -/
  entry : Nat
  /-- The data slots of text constants. -/
  constants : List Nat

namespace Program

def empty : Program := ⟨#[], #[], 0, []⟩

instance : Inhabited Program := ⟨empty⟩

def emit (p : Program) (op : Op) (pos : Pos) : Program := { p with code := p.code.push ⟨op, pos⟩ }

def alloc (p : Program) (v : Value) : Nat × Program := (p.data.size, { p with data := p.data.push v })

def holdsText (p : Program) (s : String) (i : Nat) : Bool :=
  match p.data[i]? with
  | some (.str t) => t == s
  | _ => false

/-- The data slot of a text constant, a new one only if there is none. -/
def textSlot (p : Program) (s : String) : Nat × Program :=
  match p.constants.find? (p.holdsText s) with
  | some i => (i, p)
  | none =>
    let (i, p) := p.alloc (.str s)
    (i, { p with constants := p.constants ++ [i] })

def isTypeValue (t : Ty) : Value → Bool
  | .type u => u == t
  | _ => false

def typeSlot (p : Program) (t : Ty) : Nat × Program :=
  match p.data.findIdx? (isTypeValue t) with
  | some i => (i, p)
  | none => p.alloc (.type t)

def typeAt? (p : Program) (i : Nat) : Option Ty :=
  match p.data[i]? with
  | some (.type t) => some t
  | _ => none

def truncate (p : Program) (code data : Nat) : Program :=
  { p with
    code := p.code.take code
    data := p.data.take data
    constants := p.constants.filter (· < data) }

/-- Sets the distance of a jump; none if there is no jump at that index. -/
def setOffset? (p : Program) (i : Nat) (rel : Int) : Option Program := do
  let instr ← p.code[i]?
  let op ← instr.op.withOffset? rel
  return { p with code := p.code.setIfInBounds i { instr with op := op } }

end Program

end Goblet
