import Goblet.Machine.Step

/-!
# Runs of a program

A run begins at an instruction, with memory that holds the global variables, and ends with a value, an error, no more
fuel or a crash. However it ends, memory has its length again. An error says where it arose and from where the functions
in progress were called.
-/

namespace Goblet

/-- An error of a run. -/
structure RuntimeError where
  fault : Fault
  /-- The place of the instruction that failed. -/
  pos : Option Pos
  /-- Where functions in progress were called, the innermost first. -/
  callers : List Pos
  /-- How many more there are. -/
  more : Nat

namespace RuntimeError

def listed : Nat := 10

/-- The callers as lines, counted from `i`. -/
def numberedLines (i : Nat) : List String → String
  | [] => ""
  | l :: ls => "\n    " ++ toString i ++ ": " ++ l ++ numberedLines (i + 1) ls

def message (e : RuntimeError) : String :=
  let place := match e.pos with
    | some p => p.text ++ ": "
    | none => ""
  let callers := e.callers.map fun p => "called at " ++ p.text
  let more := if e.more = 0 then [] else ["... " ++ toString e.more ++ " more"]
  let stack := if (callers ++ more).isEmpty then "" else "\n  call stack:" ++ numberedLines 0 (callers ++ more)
  place ++ "runtime error: " ++ e.fault.message ++ stack

end RuntimeError

/-- How a run ends. -/
inductive Ending where
  /-- With the value on top of the stack, if there is one. -/
  | value (v : Option Value)
  | error (e : RuntimeError)
  | outOfFuel
  | crash (c : Crash)

namespace Machine

/-- The return addresses of the frames from a frame pointer on, the innermost first, for at most `depth` frames. -/
def returns (mem : Array Value) : (depth : Nat) → (fp : Nat) → List Nat
  | 0, _ => []
  | d + 1, fp =>
    if fp < 2 then []
    else
      match mem[fp - 2]?, mem[fp - 1]? with
      | some (.int back), some (.int saved) => addressOf back :: returns mem d (addressOf saved)
      | _, _ => []

def locate (p : Program) (fault : Fault) (m : Machine) : RuntimeError :=
  let frames := returns m.mem m.depth m.fp
  let callers := (frames.take RuntimeError.listed).filterMap fun back => (p.code[back - 1]?).map (·.pos)
  ⟨fault, (p.code[m.ip]?).map (·.pos), callers, frames.length - RuntimeError.listed⟩

/-- How a run ends with a fault. -/
def failing (p : Program) (fault : Fault) (m : Machine) : Ending :=
  match fault with
  | .crash c => .crash c
  | fault => .error (locate p fault m)

/-- What a run leaves. -/
structure Outcome where
  ending : Ending
  mem : Array Value
  store : Store
  printed : String

def run (s : Setting) (fuel : Nat) (mem : Array Value) (store : Store) (ip : Nat) : Outcome :=
  let base := mem.size
  match execute s fuel (start mem store ip) with
  | .ok true m => ⟨.value (if base < m.mem.size then m.mem.back? else none), m.mem.shrink base, m.store, m.printed⟩
  | .ok false m => ⟨.outOfFuel, m.mem.shrink base, m.store, m.printed⟩
  | .error fault m => ⟨failing s.program fault m, m.mem.shrink base, m.store, m.printed⟩

/-- Memory brought in line with a data segment: from an index on it holds what the data does. -/
def loadData (mem data : Array Value) (start : Nat) : Array Value :=
  let kept := mem.take start
  kept ++ data.extract kept.size data.size

end Machine

end Goblet
