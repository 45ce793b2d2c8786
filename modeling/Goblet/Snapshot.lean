import Goblet.Symbol

/-!
# Snapshots

A dump holds the value of every named global with the name, kind and type of its symbol. Pointers to heap cells are
numbers of cells that the dump also holds, in the order in which they were first met, so cells that were shared or
cyclic are so again after restoring. A dump applies only where every record finds its symbol; then it says what to
write, and to variables only.
-/

namespace Goblet

inductive DumpKind where
  | var | func
deriving DecidableEq, Repr

def DumpKind.text : DumpKind → String
  | .var => "var"
  | .func => "func"

def DumpKind.ofSymbol? : SymbolKind → Option DumpKind
  | .var => some .var
  | .func => some .func
  | _ => none

/-- A value in a dump. -/
inductive DumpValue where
  | nil
  | bool (b : Bool)
  | int (n : Int64)
  /-- The bits of a float. -/
  | float (bits : UInt64)
  | str (s : String)
  | slice (items : List DumpValue)
  | map (entries : List (DumpValue × DumpValue))
  | struct (fields : List DumpValue)
  /-- A pointer to a heap cell of the dump. -/
  | cell (n : Nat)
  /-- A pointer to a global. -/
  | addr (n : Nat)
  | func (entry : Nat)

instance : Inhabited DumpValue := ⟨.nil⟩

structure DumpRecord where
  index : Nat
  name : String
  kind : DumpKind
  typeName : String
  value : DumpValue

structure Dump where
  records : List DumpRecord
  /-- The contents of heap cells. -/
  cells : List DumpValue

/-! ## Errors -/

/-- Why bytes are no dump. -/
inductive DecodeError where
  | endOfInput
  | varint
  | bool
  | text
  | variant
deriving DecidableEq, Repr

def DecodeError.message : DecodeError → String
  | .endOfInput => "Hit the end of buffer, expected more data"
  | .varint => "Found a varint that didn't terminate. Is the usize too big for this platform?"
  | .bool => "Found a bool that wasn't 0 or 1"
  | .text => "Tried to parse invalid utf-8"
  | .variant => "Serde Deserialization Error"

/-- Why a value of a dump cannot be restored. -/
inductive RestoreError where
  | value (e : ValueError)
  | cell (n : Nat)

def RestoreError.message : RestoreError → String
  | .value e => e.message
  | .cell n => "unknown heap cell " ++ toString n

inductive SnapshotError where
  | outOfRange (index len : Nat)
  | nameMismatch (index : Nat) (name : String)
  | kindMismatch (name : String) (expected : Option DumpKind) (found : DumpKind)
  | typeMismatch (name expected found : String)
  | immutable (name : String)
  | unsupported (name : String) (ty : Ty)
  | invalid (name : String) (e : RestoreError)
  | codec (e : DecodeError)

def SnapshotError.message : SnapshotError → String
  | .outOfRange index len =>
    "snapshot slot " ++ toString index ++ " out of range (session has " ++ toString len ++ " globals)"
  | .nameMismatch index name => "snapshot slot " ++ toString index ++ ": no global named " ++ name ++ " there"
  | .kindMismatch name expected found =>
    "snapshot " ++ name ++ ": kind " ++ found.text ++ " does not match "
      ++ (expected.map DumpKind.text).getD "constant"
  | .typeMismatch name expected found =>
    "snapshot " ++ name ++ ": type " ++ found ++ " does not match " ++ expected
  | .immutable name => "snapshot " ++ name ++ ": function values cannot be changed"
  | .unsupported name ty => "snapshot " ++ name ++ ": cannot save a value of type " ++ ty.text
  | .invalid name e => "snapshot " ++ name ++ ": " ++ e.message
  | .codec e => "snapshot encoding: " ++ e.message

/-! ## Capturing -/

/-- The heap cells met so far, with their contents as far as they are captured. -/
structure CellTable where
  met : Array Nat
  contents : Array DumpValue

namespace CellTable

def empty : CellTable := ⟨#[], #[]⟩

def number? (t : CellTable) (cell : Nat) : Option Nat := t.met.findIdx? (· == cell)

def add (t : CellTable) (cell : Nat) : CellTable := ⟨t.met.push cell, t.contents.push .nil⟩

def setContent (t : CellTable) (n : Nat) (v : DumpValue) : CellTable :=
  { t with contents := t.contents.setIfInBounds n v }

end CellTable

/-- Capturing, which fails at a value that no dump can hold. -/
abbrev Capture := StateT CellTable Option

namespace DumpValue

def ofKey : Key → DumpValue
  | .bool b => .bool b
  | .int n => .int n
  | .str s => .str s

def captureList (content : Value → Capture DumpValue) : List Value → Capture (List DumpValue)
  | [] => return []
  | v :: vs => do
    let d ← content v
    return d :: (← captureList content vs)

def captureEntries (content : Value → Capture DumpValue) :
    List (Key × Value) → Capture (List (DumpValue × DumpValue))
  | [] => return []
  | (k, v) :: es => do
    let d ← content v
    return (ofKey k, d) :: (← captureEntries content es)

mutual

/-- Captures a value; `content` captures what it means in the store. -/
def captureWith (h : Store) (content : Value → Capture DumpValue) : Value → Capture DumpValue
  | .nil => return .nil
  | .bool b => return .bool b
  | .int n => return .int n
  | .float x => return .float x.bits
  | .str s => return .str s
  | .slice w => do return .slice (← captureList content (h.items w))
  | .map m => do return .map (← captureEntries content (h.entries m))
  | .struct fs => do return .struct (← captureFields h content fs)
  | .ref a => return .addr a
  | .heap c => do
    let t ← get
    match t.number? c with
    | some n => return .cell n
    | none =>
      set (t.add c)
      let d ← content ((h.cell? c).getD .nil)
      modify (·.setContent t.contents.size d)
      return .cell t.contents.size
  | .func entry => return .func entry
  | .host _ | .items _ | .count .. | .type _ => failure

def captureFields (h : Store) (content : Value → Capture DumpValue) : List Value → Capture (List DumpValue)
  | [] => return []
  | v :: vs => do
    let d ← captureWith h content v
    return d :: (← captureFields h content vs)

end

/-- Captures a value that leads at most so many times from one thing of the store into another. -/
def captureTo (h : Store) : Nat → Value → Capture DumpValue
  | 0 => captureWith h fun _ => failure
  | n + 1 => captureWith h (captureTo h n)

end DumpValue

/-- How often capturing can lead from one thing of the store into another: each heap cell is entered once, and on the
way from one to the next nothing is entered twice. -/
def Store.reach (h : Store) : Nat := (h.cells.size + 1) * (h.extent + 2)

namespace DumpValue

def capture (h : Store) (v : Value) : Capture DumpValue := captureTo h h.reach v

def ofValue? (h : Store) (v : Value) : Option DumpValue := ((capture h v).run .empty).map (·.1)

mutual

/-- Whether two values of dumps are the same. Floats are compared as numbers. -/
def same : DumpValue → DumpValue → Bool
  | .nil, .nil => true
  | .bool a, .bool b => a == b
  | .int a, .int b => a == b
  | .float a, .float b => Double.eqv ⟨a⟩ ⟨b⟩
  | .str a, .str b => a == b
  | .slice as, .slice bs => sameAll as bs
  | .map as, .map bs => samePairs as bs
  | .struct as, .struct bs => sameAll as bs
  | .cell a, .cell b => a == b
  | .addr a, .addr b => a == b
  | .func a, .func b => a == b
  | _, _ => false

def sameAll : List DumpValue → List DumpValue → Bool
  | [], [] => true
  | a :: as, b :: bs => same a b && sameAll as bs
  | _, _ => false

def samePairs : List (DumpValue × DumpValue) → List (DumpValue × DumpValue) → Bool
  | [], [] => true
  | (k, a) :: as, (l, b) :: bs => same k l && same a b && samePairs as bs
  | _, _ => false

end

end DumpValue

namespace Dump

/-- The symbols that a dump holds, each with its slot and key, in the order of slots. -/
def globals (symbols : SymbolTable) : List (Nat × String × DumpKind × Ty) :=
  let found := symbols.entries.filterMap fun (key, s) =>
    match DumpKind.ofSymbol? s.kind, s.addr with
    | some kind, .global i => some (i, key, kind, s.ty)
    | _, _ => none
  found.mergeSort fun a b => a.1 ≤ b.1

def captureAll (h : Store) (mem : Array Value) :
    List (Nat × String × DumpKind × Ty) → CellTable → Except SnapshotError (List DumpRecord × CellTable)
  | [], t => .ok ([], t)
  | (i, name, kind, ty) :: rest, t =>
    match mem[i]? with
    | none => captureAll h mem rest t
    | some v =>
      match (DumpValue.capture h v).run t with
      | none => .error (.unsupported name ty)
      | some (d, t) => do
        let (records, t) ← captureAll h mem rest t
        return (⟨i, name, kind, ty.text, d⟩ :: records, t)

def take (symbols : SymbolTable) (h : Store) (mem : Array Value) : Except SnapshotError Dump := do
  let (records, t) ← captureAll h mem (globals symbols) .empty
  return ⟨records, t.contents.toList⟩

end Dump

/-! ## Restoring -/

/-- Restoring, which makes new storage. -/
abbrev Restore := StateT Store (Except RestoreError)

namespace DumpValue

mutual

/-- The value, with heap cells numbered from `base` on, of which there are `count`. -/
def restore (base count : Nat) : DumpValue → Restore Value
  | .nil => return .nil
  | .bool b => return .bool b
  | .int n => return .int n
  | .float bits => return .float ⟨bits⟩
  | .str s => return .str s
  | .slice items => do
    let vs ← restoreAll base count items
    modifyGet fun h =>
      let (w, h) := h.newSlice vs.toArray
      (.slice w, h)
  | .map entries => do
    let es ← restoreEntries base count entries
    modifyGet fun h =>
      let (m, h) := h.newMap es
      (.map m, h)
  | .struct fields => do return .struct (← restoreAll base count fields)
  | .cell n => if n < count then return .heap (base + n) else throw (.cell n)
  | .addr n => return .ref n
  | .func entry => return .func entry

def restoreAll (base count : Nat) : List DumpValue → Restore (List Value)
  | [] => return []
  | d :: ds => do
    let v ← restore base count d
    return v :: (← restoreAll base count ds)

def restoreEntries (base count : Nat) : List (DumpValue × DumpValue) → Restore (List (Key × Value))
  | [] => return []
  | (k, d) :: es => do
    let k ← restore base count k
    match k.key with
    | .error e => throw (.value e)
    | .ok k =>
      let v ← restore base count d
      return (k, v) :: (← restoreEntries base count es)

end

end DumpValue

namespace Dump

/-- Fills the new heap cells from number `n` on. -/
def restoreCells (base count : Nat) : (n : Nat) → List DumpValue → Store → Except SnapshotError Store
  | _, [], h => .ok h
  | n, d :: ds, h =>
    match (d.restore base count).run h with
    | .error e => .error (.invalid ("heap cell " ++ toString n) e)
    | .ok (v, h) => restoreCells base count (n + 1) ds (h.setCell (base + n) v)

/-- Checks that a record has its symbol: the same name at the same slot, of the same kind and type. -/
def checkRecord (symbols : SymbolTable) (size : Nat) (r : DumpRecord) : Except SnapshotError Unit := do
  if size ≤ r.index then throw (.outOfRange r.index size)
  match symbols.lookup? r.name with
  | some s =>
    if s.addr ≠ .global r.index then throw (.nameMismatch r.index r.name)
    let kind := DumpKind.ofSymbol? s.kind
    if kind ≠ some r.kind then throw (.kindMismatch r.name kind r.kind)
    if s.ty.text ≠ r.typeName then throw (.typeMismatch r.name s.ty.text r.typeName)
  | none => throw (.nameMismatch r.index r.name)

/-- What records write. A function must be what it already is. -/
def writes (symbols : SymbolTable) (mem : Array Value) (base count : Nat) :
    List DumpRecord → Store → Except SnapshotError (List (Nat × Value) × Store)
  | [], h => .ok ([], h)
  | r :: rs, h => do
    checkRecord symbols mem.size r
    match r.kind with
    | .func =>
      match (mem[r.index]?).bind (DumpValue.ofValue? h) with
      | some d => if !d.same r.value then throw (.immutable r.name)
      | none => throw (.immutable r.name)
      writes symbols mem base count rs h
    | .var =>
      match (r.value.restore base count).run h with
      | .error e => throw (.invalid r.name e)
      | .ok (v, h) =>
        let (ws, h) ← writes symbols mem base count rs h
        return ((r.index, v) :: ws, h)

def restore (symbols : SymbolTable) (h : Store) (mem : Array Value) (d : Dump) :
    Except SnapshotError (List (Nat × Value) × Store) := do
  let base := h.cells.size
  let count := d.cells.length
  let h := { h with cells := h.cells ++ Array.replicate count .nil }
  let h ← restoreCells base count 0 d.cells h
  writes symbols mem base count d.records h

end Dump

end Goblet
