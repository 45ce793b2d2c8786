import Goblet.Code.Listing

/-!
# The machine

A stack machine. Its memory has the global variables at the bottom and the stack above them. A call frame is: the
parameters, the return address, the frame pointer of the caller, the local variables, and operands; the frame pointer
is the address of the first local variable. What an instruction had done before it failed stays done (`Exec`).

What an instruction changes in the store is lent to it for as long (`Machine.lending`). An access to a cell that is not
there, to something the store does not hold or that is lent already, and a length below zero are a `Breach`: not an
error of the program that runs but of the machine. Where more room is needed than there is, or a text without end, the
machine crashes (`Crash`), and the run does not end at all.
-/

namespace Goblet

/-- Limits of a run. -/
structure Limits where
  callDepth : Nat
  steps : Option Nat
  /-- Cells above the global variables. -/
  stack : Nat

def Limits.standard : Limits := ⟨1000, none, 10000⟩

/-! ## Faults -/

/-- An access that the machine must not make. -/
inductive Breach where
  /-- A cell outside of memory. -/
  | cell (a : Nat)
  /-- A length less more than it is. -/
  | length (n k : Nat)
  /-- The store does not hold what a value refers to. -/
  | absent (v : Value)
  /-- Something is used while it is lent. -/
  | lent (x : Handle)

/-- Why an instruction fails. -/
inductive Fault where
  | breach (b : Breach)
  | crash (c : Crash)
  | stepLimit (n : Nat)
  | stackLimit (n : Nat)
  | depthLimit (n : Nat)
  | underflow (op : String)
  | typeError (expected got : String)
  | value (e : ValueError)
  | indexRange (i : Int64) (len : Nat)
  | nilPointer
  | nilMap
  | badSlot (s : Slot)
  | jumpRange (ip : Nat)
  | codeRange (ip : Nat)
  | notType (slot : Nat)
  | noReturn
  | outsideFunction
  | panic (text : String)
  | noRange
  | hostResults (name : String) (has wants : Nat)
  | hostArguments (name : String) (given want : Nat)
  | hostFailed (name message : String)
  | hostReturned (name : String) (got want : Nat)
  | notComposite (ty : Ty)
  | emptyPath
  | fieldRange (i : Nat)
  | sliceRange
  | highBound (high : Int64) (cap : Nat)
  | lowBound (low high : Int64)
  | makeLength
  | makeCapacity
  | notMakeable (ty : Ty)

def Breach.message : Breach → String
  | .cell a => "no memory cell " ++ toString a
  | .length n k => "no length " ++ toString n ++ " - " ++ toString k
  | .absent v => v.typeName ++ " refers to nothing"
  | .lent _ => "already lent"

def Crash.message : Crash → String
  | .capacity _ => "capacity overflow"
  | .endless _ => "stack overflow"

def Fault.message : Fault → String
  | .breach b => b.message
  | .crash c => c.message
  | .stepLimit n => "execution step limit exceeded (" ++ toString n ++ ")"
  | .stackLimit n => "stack size limit exceeded (" ++ toString n ++ ")"
  | .depthLimit n => "call depth limit exceeded (" ++ toString n ++ ") - possible infinite recursion"
  | .underflow op => "stack underflow in " ++ op
  | .typeError expected got => "type error: expected " ++ expected ++ ", got " ++ got
  | .value e => e.message
  | .indexRange i len => "index out of range [" ++ toString i.toInt ++ "] with length " ++ toString len
  | .nilPointer => "invalid memory address or nil pointer dereference"
  | .nilMap => "assignment to entry in nil map"
  | .badSlot s => "invalid memory slot " ++ s.text
  | .jumpRange ip => "jump out of range from " ++ toString ip
  | .codeRange ip => "instruction pointer " ++ toString ip ++ " out of range"
  | .notType slot => "data slot " ++ toString slot ++ " is not a type"
  | .noReturn => "missing return"
  | .outsideFunction => "return outside of a function"
  | .panic text => "panic: " ++ text
  | .noRange => "range iterator missing"
  | .hostResults name has wants =>
    name ++ " returns " ++ toString has ++ " values, call wants " ++ toString wants
  | .hostArguments name given want =>
    "wrong number of arguments in call to " ++ name ++ ": have " ++ toString given ++ ", want " ++ toString want
  | .hostFailed name message => name ++ ": " ++ message
  | .hostReturned name got want =>
    name ++ " returned " ++ toString got ++ " values, want " ++ toString want
  | .notComposite ty => "invalid composite literal of type " ++ ty.text
  | .emptyPath => "empty field path"
  | .fieldRange i => "field index " ++ toString i ++ " out of range"
  | .sliceRange => "slice bounds out of range"
  | .highBound high cap =>
    "slice bounds out of range [:" ++ toString high.toInt ++ "] with capacity " ++ toString cap
  | .lowBound low high =>
    "slice bounds out of range [" ++ toString low.toInt ++ ":" ++ toString high.toInt ++ "]"
  | .makeLength => "makeslice: len out of range"
  | .makeCapacity => "makeslice: cap out of range"
  | .notMakeable ty => "cannot make " ++ ty.text

/-! ## States -/

structure Machine where
  mem : Array Value
  store : Store
  /-- What host functions have printed. -/
  printed : String
  ip : Nat
  fp : Nat
  /-- The size of memory when the run began. -/
  base : Nat
  depth : Nat
  steps : Nat
  /-- What is lent for a change. -/
  lent : List Handle

/-- What does not change while running. -/
structure Setting where
  program : Program
  registry : Registry
  limits : Limits

/-- Something a machine does, which may fail. -/
abbrev Exec := EStateM Fault Machine

namespace Machine

def start (mem : Array Value) (store : Store) (ip : Nat) : Machine :=
  ⟨mem, store, "", ip, mem.size, mem.size, 0, 0, []⟩

/-- Room for so many values in a row. A value takes 56 bytes. -/
def room (n : Nat) : Exec Unit := if Crash.limit ≤ 56 * n then throw (.crash (.capacity (56 * n))) else pure ()

def less (n k : Nat) : Exec Nat := if k ≤ n then return n - k else throw (.breach (.length n k))

/-! ## The stack -/

@[inline] def push (v : Value) : Exec Unit := modify fun m => { m with mem := m.mem.push v }

def pushAll (vs : List Value) : Exec Unit := modify fun m => { m with mem := vs.foldl Array.push m.mem }

def pop (op : String) : Exec Value := do
  let v? ← modifyGet fun m =>
    if m.base < m.mem.size then (m.mem.back?, { m with mem := m.mem.pop }) else (none, m)
  match v? with
  | some v => return v
  | none => throw (.underflow op)

def popN (n : Nat) (op : String) : Exec (List Value) := do
  let m ← get
  if m.mem.size < m.base + n then throw (.underflow op)
  let k ← less m.mem.size n
  modifyGet fun m => ((m.mem.extract k m.mem.size).toList, { m with mem := m.mem.shrink k })

def popInt (op : String) : Exec Int64 := do
  match ← pop op with
  | .int n => return n
  | v => throw (.typeError "int" v.typeName)

def popBool (op : String) : Exec Bool := do
  match ← pop op with
  | .bool b => return b
  | v => throw (.typeError "bool" v.typeName)

def peekBool (op : String) : Exec Bool := do
  let m ← get
  if m.base < m.mem.size then
    match m.mem.back? with
    | some (.bool b) => return b
    | some v => throw (.typeError "bool" v.typeName)
    | none => throw (.underflow op)
  else throw (.underflow op)

/-! ## Memory -/

def address (s : Slot) : Exec Nat := do
  let m ← get
  let a : Int := match s with
    | .global i => i
    | .local k => m.fp + k
  if 0 ≤ a ∧ a < m.mem.size then return a.toNat else throw (.badSlot s)

def cell (a : Nat) : Exec Value := do
  match (← get).mem[a]? with
  | some v => return v
  | none => throw (.breach (.cell a))

def write (a : Nat) (v : Value) : Exec Unit := do
  let done ← modifyGet fun m =>
    if a < m.mem.size then (true, { m with mem := m.mem.setIfInBounds a v }) else (false, m)
  if !done then throw (.breach (.cell a))

def value (r : Except ValueError α) : Exec α :=
  match r with
  | .ok a => return a
  | .error e => throw (.value e)

def given (r : Except Fault α) : Exec α :=
  match r with
  | .ok a => return a
  | .error e => throw e

/-! ## The store -/

def storing (f : Store → α × Store) : Exec α :=
  modifyGet fun m =>
    let (a, h) := f m.store
    (a, { m with store := h })

def reach (v : Value) : Exec Unit := do
  match v.handle? with
  | some x =>
    let m ← get
    if !m.store.holds v then throw (.breach (.absent v))
    if x ∈ m.lent then throw (.breach (.lent x))
  | none => pure ()

def looking (v : Value) (f : Store → α) : Exec α := do
  reach v
  return f (← get).store

def lookingAround (f : Store → α) : Exec α := do
  let m ← get
  match m.lent with
  | [] => return f m.store
  | x :: _ => throw (.breach (.lent x))

/-- Does something to what a value refers to, which is lent for as long, also if this fails. -/
def lending (v : Value) (act : Exec α) : Exec α :=
  match v.handle? with
  | some x => do
    reach v
    modify fun m => { m with lent := x :: m.lent }
    fun m => match act m with
      | .ok a m => .ok a { m with lent := m.lent.tail }
      | .error e m => .error e { m with lent := m.lent.tail }
  | none => act

/-! ## Pointers -/

def content (p : Value) : Exec Value := do
  match p with
  | .ref a =>
    match (← get).mem[a]? with
    | some v => return v
    | none => throw .nilPointer
  | .heap c => return ((← get).store.cell? c).getD .nil
  | .nil => throw .nilPointer
  | v => throw (.typeError "pointer" v.typeName)

def setContent (p v : Value) : Exec Unit := do
  match p with
  | .ref a => if a < (← get).mem.size then write a v else throw .nilPointer
  | .heap c => modify fun m => { m with store := m.store.setCell c v }
  | .nil => throw .nilPointer
  | p => throw (.typeError "pointer" p.typeName)

def load (p : Value) : Exec Value := do
  reach p
  content p

def storeAt (p v : Value) : Exec Unit := lending p (setContent p v)

/-! ## The program -/

def target (rel : Int) : Exec Nat := do
  let ip := (← get).ip
  if 0 ≤ (ip : Int) + rel then return ((ip : Int) + rel).toNat else throw (.jumpRange ip)

def typeAt (p : Program) (slot : Nat) : Exec Ty :=
  match p.typeAt? slot with
  | some t => return t
  | none => throw (.notType slot)

end Machine

end Goblet
