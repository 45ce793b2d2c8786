import Goblet.Code
import Goblet.Compile.Error
import Goblet.Compile.Operand
import Goblet.Stream.Context

/-!
# The state of the compiler

The compiler adds to a program and a symbol table, and keeps beside them what it knows of the operands on the stack.
Jumps to what is not compiled yet are kept and get their distance in the end.
-/

namespace Goblet

/-- Where a jump leads that has no distance yet. -/
inductive JumpTarget where
  | label (name : String)
  | func (key : String)

/-- A jump that has no distance yet. -/
structure OpenJump where
  site : Nat
  target : JumpTarget
  pos : Pos

/-- A function whose body is being compiled. -/
structure OpenFunc where
  key : String
  sig : FuncType
  /-- The number of local variables so far. -/
  locals : Nat
  /-- The instruction that makes room for them. -/
  growSite : Nat
  /-- The jump over the body; there is none when the body stands at the entry. -/
  skipSite : Option Nat
  stackBase : Nat
  marksBase : Nat

structure CompileState where
  symbols : SymbolTable
  program : Program
  store : Store
  stack : OperandStack
  /-- The scopes entered, the innermost first. -/
  scopes : List String
  /-- The functions begun, the innermost first. -/
  funcs : List OpenFunc
  /-- The heights of the stack at marks, the last one first. -/
  marks : List Nat
  jumps : List OpenJump
  /-- The labels of this chunk. -/
  labels : List String
  /-- The index of the last instruction that can be jumped to. -/
  lastLabel : Option Nat

/-- Compiling, which stops at the first error. What was done before it stays done. -/
abbrev Compile := EStateM CompileError CompileState

namespace Compile

def start (symbols : SymbolTable) (program : Program) (store : Store) : CompileState :=
  ⟨symbols, program, store, .empty, [Place.mainScope], [], [], [], [], none⟩

def fail (cause : CompileCause) (p : Pos) : Compile α := throw ⟨cause, p⟩

/-! ## Code -/

def codeSize : Compile Nat := do return (← get).program.code.size

def emitSite (op : Op) (p : Pos) : Compile Nat := do
  let i ← codeSize
  modify fun s => { s with program := s.program.emit op p }
  return i

def emit (op : Op) (p : Pos) : Compile Unit := do let _ ← emitSite op p

def replaceOp (i : Nat) (op : Op) : Compile Unit :=
  modify fun s => { s with program.code := s.program.code.modify i fun x => { x with op := op } }

def cutCode (i : Nat) : Compile Unit :=
  modify fun s => { s with program.code := s.program.code.take i }

def typeSlot (t : Ty) : Compile Nat := do
  let s ← get
  let (i, p) := s.program.typeSlot t
  set { s with program := p }
  return i

def patch (site target : Nat) : Compile Unit :=
  modify fun s =>
    match s.program.setOffset? site ((target : Int) - site) with
    | some p => { s with program := p }
    | none => s

/-! ## Operands -/

def pushOperand (o : Operand) : Compile Unit := modify fun s => { s with stack := s.stack.push o }

def pushValue (t : Ty) : Compile Unit := pushOperand (.plain t)

def popOperand (p : Pos) : Compile Operand := do
  let s ← get
  match s.stack.pop? with
  | some (o, stack) =>
    set { s with stack := stack }
    return o
  | none => fail .underflow p

def popOperands (n : Nat) (p : Pos) : Compile (List Operand) := do
  let s ← get
  match s.stack.popN? n with
  | some (os, stack) =>
    set { s with stack := stack }
    return os
  | none => fail .underflow p

/-- A value that an instruction takes: its type, and what is known of it. -/
structure Taken where
  ty : Ty
  known : Option Known

def expectValue (o : Operand) (p : Pos) : Compile Taken :=
  match o with
  | .value ty known => return ⟨ty, known⟩
  | o => fail (.notExpression o.describe) p

def popValue (p : Pos) : Compile Taken := do expectValue (← popOperand p) p

def expectValues (p : Pos) : List Operand → Compile (List Taken)
  | [] => return []
  | o :: os => do
    let v ← expectValue o p
    return v :: (← expectValues p os)

def popValues (n : Nat) (p : Pos) : Compile (List Taken) := do expectValues p (← popOperands n p)

def popCondition (p : Pos) : Compile Unit := do
  let v ← popValue p
  if v.ty = .bool ∨ v.ty.isDynamic then return () else fail (.condition v.ty) p

/-! ## Scopes and names -/

def scope : Compile String := do return (← get).scopes.headD Place.mainScope

def seek (name : String) : Compile (Option (String × Symbol)) := do
  return (← get).symbols.resolve? name (← scope)

def resolve (name : String) (p : Pos) : Compile (String × Symbol) := do
  if name = "_" then fail .blankValue p
  else
    match ← seek name with
    | some r => return r
    | none => fail (.undefined name) p

def lookup (key : String) : Compile (Option Symbol) := do return (← get).symbols.lookup? key

def addSymbol (key : String) (sym : Symbol) : Compile Unit :=
  modify fun s => { s with symbols := s.symbols.add key sym }

/-- The part of a key after its last `/`. -/
def shortName (key : String) : String := String.ofList (key.toList.reverse.takeWhile (· != '/')).reverse

/-! ## Jumps -/

def labelAt? (name : String) : Compile (Option Nat) := do
  let s ← get
  return if s.labels.contains name then s.symbols.label? name else none

def jumpTo (site : Nat) (label : String) (p : Pos) : Compile Unit := do
  match ← labelAt? label with
  | some target => patch site target
  | none => modify fun s => { s with jumps := s.jumps ++ [⟨site, .label label, p⟩] }

def jump (op : Op) (label : String) (p : Pos) : Compile Unit := do jumpTo (← emitSite op p) label p

/-! ## Constants -/

/-- Whether a known value is loaded by the last instruction, with no way to jump there. -/
def isTrailing (k : Known) : Compile Bool := do
  let s ← get
  return k.loadedAt + 1 = s.program.code.size ∧ s.lastLabel ≠ some k.loadedAt

def textSlot (text : String) : Compile Nat := do
  let s ← get
  let (i, p) := s.program.textSlot text
  set { s with program := p }
  return i

/-- The instruction that loads a value. Texts are loaded from the data segment. -/
def loading (v : Value) : Compile Op :=
  match v with
  | .str text => do return .get (.global (← textSlot text))
  | v => return .push v

def constant (v : Value) (t : Ty) (p : Pos) : Compile Unit := do
  let site ← emitSite (← loading v) p
  pushOperand (.value t (some ⟨v, site⟩))

def pushedInt? (p : Program) (i : Nat) : Option Int64 :=
  match p.code[i]? with
  | some ⟨.push (.int n), _⟩ => some n
  | _ => none

/-- Checks that a value may be stored where a type is wanted, and makes it a float if need be: already where it is
loaded, if it is a constant. `depth` counts the cells above it. -/
def coerce (v : Taken) (dst : Ty) (depth : Nat) (context : String) (p : Pos) : Compile Unit := do
  if !dst.accepts v.ty then fail (.cannotUse ("value of type " ++ v.ty.text) dst context) p
  else if !dst.needsFloat v.ty then return ()
  else
    let program := (← get).program
    match v.known.bind fun k => (pushedInt? program k.loadedAt).map fun n => (k.loadedAt, n) with
    | some (i, n) => replaceOp i (.push (.float (.ofInt n)))
    | none =>
      let slot ← typeSlot .float
      emit (.convert slot depth) p

end Compile

end Goblet
