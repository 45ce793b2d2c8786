import Goblet.Text.Layout

/-!
# Options

The arguments of the command line, read from left to right. An option with a value takes the rest of its argument or
the next one; one that is given twice, an unknown one and a second file are refused (`Stop.misuse`).
-/

namespace Goblet

/-- What the command line asks for. -/
structure Options where
  file : Option String
  /-- Source to evaluate in place of a file. -/
  snippet : Option String
  repl : Bool
  tokens : Bool
  noColor : Bool
  bytecode : Bool
  maxSteps : Option Nat
  load : Option String
  save : Option String
  verbosity : Nat

/-- Why arguments give no options. -/
inductive Stop where
  | help
  | misuse
deriving DecidableEq

/-- Options without a value. -/
inductive Switch where
  | repl | tokens | noColor | bytecode | verbose | help

/-- Options with a value. -/
inductive Valued where
  | snippet | maxSteps | load | save

namespace Options

def none : Options := ⟨.none, .none, false, false, false, false, .none, .none, .none, 0⟩

def ofName? : String → Option (Switch ⊕ Valued)
  | "eval" => some (.inr .snippet)
  | "max-steps" => some (.inr .maxSteps)
  | "load" => some (.inr .load)
  | "save" => some (.inr .save)
  | "repl" => some (.inl .repl)
  | "tokens" => some (.inl .tokens)
  | "no-color" => some (.inl .noColor)
  | "bytecode" | "bc" => some (.inl .bytecode)
  | "verbose" => some (.inl .verbose)
  | "help" => some (.inl .help)
  | _ => Option.none

def ofLetter? : Char → Option (Switch ⊕ Valued)
  | 'e' => some (.inr .snippet)
  | 'i' => some (.inl .repl)
  | 'v' => some (.inl .verbose)
  | 'h' => some (.inl .help)
  | _ => Option.none

def once (set : Bool) (o : Options) : Except Stop Options := if set then .error .misuse else .ok o

def set (o : Options) : Switch → Except Stop Options
  | .repl => once o.repl { o with repl := true }
  | .tokens => once o.tokens { o with tokens := true }
  | .noColor => once o.noColor { o with noColor := true }
  | .bytecode => once o.bytecode { o with bytecode := true }
  | .verbose => .ok { o with verbosity := o.verbosity + 1 }
  | .help => .error .help

def digits? (cs : List Char) : Option Nat :=
  if cs.isEmpty || !cs.all Char.isDigit then Option.none
  else
    let n := cs.foldl (fun n c => 10 * n + (c.toNat - '0'.toNat)) 0
    if n < Nat.pow 2 64 then some n else Option.none

def count? (s : String) : Option Nat :=
  match s.toList with
  | '+' :: cs => digits? cs
  | cs => digits? cs

def give (o : Options) (k : Valued) (v : String) : Except Stop Options :=
  match k with
  | .snippet => once o.snippet.isSome { o with snippet := some v }
  | .maxSteps =>
    match count? v with
    | some n => once o.maxSteps.isSome { o with maxSteps := some n }
    | Option.none => .error .misuse
  | .load => once (o.load.isSome || v.isEmpty) { o with load := some v }
  | .save => once (o.save.isSome || v.isEmpty) { o with save := some v }

def positional (o : Options) (v : String) : Except Stop Options :=
  once (o.file.isSome || v.isEmpty) { o with file := some v }

def positionals : List String → Options → Except Stop Options
  | [], o => .ok o
  | v :: vs, o => do positionals vs (← o.positional v)

/-- Reads a long option. Gives the option that still lacks its value, if it does. -/
def long (cs : List Char) (o : Options) : Except Stop (Options × Option Valued) :=
  let name := String.ofList (cs.takeWhile (· != '='))
  match ofName? name, cs.dropWhile (· != '=') with
  | some (.inl k), [] => do return (← o.set k, Option.none)
  | some (.inr k), [] => .ok (o, some k)
  | some (.inr k), _ :: v => do return (← o.give k (String.ofList v), Option.none)
  | _, _ => .error .misuse

/-- The value that follows a letter in the same argument. An equals sign in between is dropped. -/
def attached : List Char → String
  | '=' :: cs => String.ofList cs
  | cs => String.ofList cs

def letters : List Char → Options → Except Stop (Options × Option Valued)
  | [], o => .ok (o, Option.none)
  | c :: cs, o =>
    match ofLetter? c with
    | some (.inl k) => do letters cs (← o.set k)
    | some (.inr k) => if cs.isEmpty then .ok (o, some k) else do return (← o.give k (attached cs), Option.none)
    | Option.none => .error .misuse

def looksLikeOption (a : String) : Bool :=
  match a.toList with
  | '-' :: _ :: _ => true
  | _ => false

/-- Reads arguments. `pending` is an option that lacks its value. -/
def readFrom : (pending : Option Valued) → List String → Options → Except Stop Options
  | Option.none, [], o => .ok o
  | some _, [], _ => .error .misuse
  | some k, a :: as, o =>
    if looksLikeOption a then .error .misuse
    else do readFrom Option.none as (← o.give k a)
  | Option.none, a :: as, o =>
    match a.toList with
    | ['-', '-'] => positionals as o
    | '-' :: '-' :: cs => do
      let (o, pending) ← long cs o
      readFrom pending as o
    | '-' :: c :: cs => do
      let (o, pending) ← letters (c :: cs) o
      readFrom pending as o
    | _ => do readFrom Option.none as (← o.positional a)

/-- The options that arguments give. A file and a snippet exclude each other. -/
def ofArgs (args : List String) : Except Stop Options := do
  let o ← readFrom Option.none args none
  if o.file.isSome && o.snippet.isSome then .error .misuse else .ok o

end Options

end Goblet
