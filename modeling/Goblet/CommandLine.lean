import Goblet.CommandLine.Options
import Goblet.CommandLine.Script
import Goblet.Host.Library
import Goblet.Session
import Goblet.Stream.Listing

/-!
# The command line

Runs a file or a snippet, with a dump to load before and one to save after, or lists its stream, or starts an
interactive session. In an interactive session a chunk that is not complete is continued by the next line.
-/

namespace Goblet

/-! ## Interactive sessions -/

/-- An interactive session, with the lines of an unfinished chunk. -/
structure Repl where
  session : Session
  chunk : String

/-- The exit code of a process that ends like this. -/
def Crash.exitCode : Crash → Nat
  | .capacity _ => 101
  | .endless _ => 134

namespace Repl

def greeting : String := "cinder - type Go statements, Ctrl-D to exit\n"

def prompt (r : Repl) : String := if r.chunk.isEmpty then "> " else "... "

def feed (r : Repl) (fuel : Nat) (line : String) : Except Crash Repl × Printed :=
  let chunk := r.chunk ++ line ++ "\n"
  let e := r.session.eval fuel chunk
  match e.answer with
  | .value (some v) =>
    match e.session.store.text v with
    | .ok s => (.ok ⟨e.session, ""⟩, ⟨e.printed ++ s ++ "\n", ""⟩)
    | .error c => (.error c, ⟨e.printed, ""⟩)
  | .value none => (.ok ⟨e.session, ""⟩, ⟨e.printed, ""⟩)
  | .error err =>
    if err.incomplete then (.ok ⟨e.session, chunk⟩, ⟨e.printed, ""⟩)
    else (.ok ⟨e.session, ""⟩, ⟨e.printed, err.message ++ "\n"⟩)
  | .outOfFuel => (.ok ⟨e.session, ""⟩, ⟨e.printed, ""⟩)
  | .crash c => (.error c, ⟨e.printed, ""⟩)

/-- Feeds lines one after another. Gives the exit code. -/
def run (r : Repl) (fuel : Nat) (p : Printed) : List String → Nat × Printed
  | [] => (0, { p with out := p.out ++ r.prompt ++ "\n" })
  | line :: lines =>
    let (next, q) := r.feed fuel line
    let p := ⟨p.out ++ r.prompt ++ q.out, p.err ++ q.err⟩
    match next with
    | .ok next => next.run fuel p lines
    | .error c => (c.exitCode, p)

/-- A line, given last character first, without its end. A carriage return belongs to the end. -/
def endLine (line : List Char) : String :=
  match line with
  | '\r' :: cs => String.ofList cs.reverse
  | cs => String.ofList cs.reverse

/-- The lines of a text; `line` is the line so far, its last character first. -/
def linesFrom (line : List Char) : List Char → List String
  | [] => if line.isEmpty then [] else [String.ofList line.reverse]
  | '\n' :: cs => endLine line :: linesFrom [] cs
  | c :: cs => linesFrom (c :: line) cs

def lines (text : String) : List String := linesFrom [] text.toList

end Repl

/-! ## Commands -/

/-- What follows a script: the end, or an interactive session. -/
inductive Next where
  | exit (code : Nat)
  | repl (s : Session)

namespace CommandLine

def usage : String :=
  "Usage: cinder [OPTIONS] [FILE]\n\nOptions:\n  -e, --eval <EVAL>\n  -i, --repl\n      --tokens\n      --no-color\n"
    ++ "      --bytecode\n      --max-steps <MAX_STEPS>\n      --load <PATH>\n      --save <PATH>\n  -v, --verbose...\n"
    ++ "  -h, --help\n"

def unlines (ls : List String) : String := String.join (ls.map (· ++ "\n"))

def source (o : Options) : Script (Except String (Option String)) := do
  match o.file with
  | none => return .ok o.snippet
  | some path =>
    if Path.extension? path ≠ some "go" then return .error ("Error: expected a .go file, got " ++ path)
    match ← Script.readFile path with
    | .error why => return .error ("Failed to read '" ++ path ++ "': " ++ why)
    | .ok bytes =>
      match Text.ofBytes? bytes with
      | some text => return .ok (some text)
      | none => return .error ("Failed to read '" ++ path ++ "': stream did not contain valid UTF-8")

def evaluate (s : Session) (fuel : Nat) (text : String) : Script (Except String (Option Value) × Session) := do
  let e := s.eval fuel text
  Script.say e.printed
  match e.answer with
  | .value v => return (.ok v, e.session)
  | .error err => return (.error err.message, e.session)
  | .outOfFuel => return (.error "out of fuel", e.session)
  | .crash c => .crash c

def loadDump (o : Options) (s : Session) : Script (Except String Session) := do
  match o.load with
  | none => return .ok s
  | some path =>
    match ← Script.readFile path with
    | .error why => return .error ("Failed to read '" ++ path ++ "': " ++ why)
    | .ok bytes =>
      match s.applyBytes bytes with
      | (.error e, _) => return .error e.message
      | (.ok (), s) => return .ok s

def saveDump (o : Options) (s : Session) : Script (Except String Unit) := do
  match o.save with
  | none => return .ok ()
  | some path =>
    match s.dump with
    | .error e => return .error e.message
    | .ok d =>
      match ← Script.writeFile path d.toBytes with
      | .error why => return .error ("Failed to write '" ++ path ++ "': " ++ why)
      | .ok () => return .ok ()

/-- Calls the main function of a file, or shows the value of a snippet. -/
def finish (o : Options) (fuel : Nat) (s : Session) (v : Option Value) : Script (Except String Unit × Session) := do
  if o.file.isSome && s.hasFunc "main" then
    let (r, s) ← evaluate s fuel "main()"
    return (r.map fun _ => (), s)
  match v with
  | some v => if o.snippet.isSome then Script.say ((← Script.shown (s.store.text v)) ++ "\n")
  | none => pure ()
  return (.ok (), s)

/-- Evaluates a source, with a dump loaded before its main function and one saved after it. -/
def perform (o : Options) (fuel : Nat) (s : Session) (text : String) : Script (Except String Unit × Session) := do
  match ← evaluate s fuel text with
  | (.error e, s) => return (.error e, s)
  | (.ok v, s) =>
    match ← loadDump o s with
    | .error e => return (.error e, s)
    | .ok s =>
      match ← finish o fuel s v with
      | (.error e, s) => return (.error e, s)
      | (.ok (), s) => return (← saveDump o s, s)

def fail (message : String) : Script Next := do
  Script.warn (message ++ "\n")
  return .exit 1

def listStream (o : Options) (text : String) : Script Next := do
  match (Session.shape 0 text).1 with
  | .error e => fail e.message
  | .ok stream =>
    Script.say (unlines (Stream.listing ⟨!o.noColor, true⟩ stream))
    return .exit 0

def limits (o : Options) : Limits := { Limits.standard with steps := o.maxSteps }

def command (o : Options) (fuel : Nat) : Script Next := do
  let s := Session.new .standard (limits o)
  match ← source o with
  | .error e => fail e
  | .ok none => return .repl s
  | .ok (some text) =>
    if o.tokens then listStream o text
    else
      let (r, s) ← perform o fuel s text
      if o.bytecode then Script.say ("=== BYTECODE PROGRAM ===\n\n" ++
        unlines (← Script.shown (s.program.listing s.store)))
      match r with
      | .error e => fail e
      | .ok () => if o.repl then return .repl s else return .exit 0

def script (args : List String) (fuel : Nat) : Script Next := do
  match Options.ofArgs args with
  | .ok o => command o fuel
  | .error .help =>
    Script.say usage
    return .exit 0
  | .error .misuse =>
    Script.warn usage
    return .exit 2

/-- Runs a command on a table of files, with a text as its input. Gives the exit code. -/
def run (args : List String) (fuel : Nat) (d : Disk) (input : String) : Nat × Disk × Printed :=
  match (script args fuel).runOn d ⟨"", ""⟩ with
  | (.ok (.exit code), d, p) => (code, d, p)
  | (.ok (.repl s), d, p) =>
    let (code, p) := (Repl.mk s "").run fuel { p with out := p.out ++ Repl.greeting } (Repl.lines input)
    (code, d, p)
  | (.error c, d, p) => (c.exitCode, d, p)

end CommandLine

end Goblet
