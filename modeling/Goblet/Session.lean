import Goblet.Compile.Chunk
import Goblet.Machine.Run
import Goblet.Snapshot.Codec
import Goblet.Stream.Chunk

/-!
# Sessions

A session evaluates chunks of source one after another. Each is compiled onto the program that the ones before have
left, and only its own code runs. A chunk that is no program, or does not compile, leaves the session as it was, except
for the numbers of fresh names and the place of the last instruction. A chunk that fails while it runs stays compiled.
-/

namespace Goblet

/-- Why a chunk gives no value. -/
inductive EvalError where
  | lex (e : LexError)
  | parse (e : ParseError)
  | compile (e : CompileError)
  | runtime (e : RuntimeError)

namespace EvalError

def message : EvalError → String
  | .lex e => e.message
  | .parse e => e.message
  | .compile e => e.message
  | .runtime e => e.message

def incomplete : EvalError → Bool
  | .lex e => e.incomplete
  | _ => false

end EvalError

/-- What evaluating gives. -/
inductive Answer where
  /-- The value of the last expression or assignment, if there is one. -/
  | value (v : Option Value)
  | error (e : EvalError)
  | outOfFuel
  | crash (c : Crash)

structure Session where
  program : Program
  symbols : SymbolTable
  registry : Registry
  limits : Limits
  /-- The values of the data slots. -/
  mem : Array Value
  store : Store
  /-- How many data slots are in memory. -/
  loaded : Nat
  /-- The number of the next fresh name. -/
  labels : Nat

/-- An answer, what was printed, and the session after it. -/
structure Evaluation where
  answer : Answer
  printed : String
  session : Session

namespace Session

def new (registry : Registry) (limits : Limits) : Session :=
  ⟨.empty, .predeclared registry, registry, limits, #[], .empty, 0, 0⟩

def endPos (stream : List Step) : Pos := (stream.getLast?.map (·.pos)).getD .none

def endsWithExit (p : Program) : Bool :=
  match p.code.back? with
  | some ⟨.exit, _⟩ => true
  | _ => false

def withoutExit (p : Program) : Program := if endsWithExit p then { p with code := p.code.pop } else p

/-- The stream of a chunk, and the number of the next fresh name in any case. -/
def shape (labels : Nat) (source : String) : Except EvalError (List Step) × Nat :=
  match Token.scan source with
  | .error e => (.error (.lex e), labels)
  | .ok toks =>
    match Stream.ofTokens labels toks with
    | (.error e, n) => (.error (.parse e), n)
    | (.ok stream, n) => (.ok stream, n)

/-- The program cut back to the code and data it had, with the entry it had. -/
def rollback (before after : Program) : Program :=
  { after.truncate before.code.size before.data.size with entry := before.entry }

/-- Compiles a stream and brings its data into memory. On an error what was added is taken back and the exit is put
anew. -/
def load (s : Session) (stream : List Step) : Except CompileError Unit × Session :=
  let p := withoutExit s.program
  match Compiled.attempt s.registry ⟨s.symbols, p, s.store⟩ stream with
  | (.error e, c) => (.error e, { s with program := (rollback p c.program).emit .exit (endPos stream) })
  | (.ok (), c) =>
    (.ok (), { s with
      program := c.program.emit .exit (endPos stream)
      symbols := c.symbols
      mem := Machine.loadData s.mem c.program.data s.loaded
      store := c.store
      loaded := c.program.data.size })

def nextStart (s : Session) : Nat := (withoutExit s.program).code.size

def runFrom (s : Session) (fuel : Nat) (start : Nat) : Evaluation :=
  let o := Machine.run ⟨s.program, s.registry, s.limits⟩ fuel s.mem s.store start
  let answer := match o.ending with
    | .value v => .value v
    | .error e => .error (.runtime e)
    | .outOfFuel => .outOfFuel
    | .crash c => .crash c
  ⟨answer, o.printed, { s with mem := o.mem, store := o.store }⟩

def eval (s : Session) (fuel : Nat) (source : String) : Evaluation :=
  match shape s.labels source with
  | (.error e, n) => ⟨.error e, "", { s with labels := n }⟩
  | (.ok stream, n) =>
    let s := { s with labels := n }
    match s.load stream with
    | (.error e, t) => ⟨.error (.compile e), "", t⟩
    | (.ok (), t) => t.runFrom fuel (max s.nextStart t.program.entry)

def call (s : Session) (fuel : Nat) (name : String) : Evaluation := s.eval fuel (name ++ "()")

def hasFunc (s : Session) (name : String) : Bool :=
  match s.symbols.lookup? (SymbolTable.qualify "main" name) with
  | some sym => sym.kind == .func
  | none => false

def globals (s : Session) : Array Value := s.mem.take s.loaded

def dump (s : Session) : Except SnapshotError Dump := Dump.take s.symbols s.store s.globals

def write (mem : Array Value) (writes : List (Nat × Value)) : Array Value :=
  writes.foldl (fun mem (i, v) => mem.setIfInBounds i v) mem

/-- Brings the variables of a dump into the session. A dump that does not fit changes nothing. -/
def applyDump (s : Session) (d : Dump) : Except SnapshotError Unit × Session :=
  match d.restore s.symbols s.store s.globals with
  | .error e => (.error e, s)
  | .ok (writes, store) => (.ok (), { s with mem := write s.mem writes, store := store })

def applyBytes (s : Session) (bs : List UInt8) : Except SnapshotError Unit × Session :=
  match Dump.ofBytes bs with
  | .error e => (.error (.codec e), s)
  | .ok d => s.applyDump d

end Session

end Goblet
