import Goblet.Store.Tree

/-!
# Scripts

A script says what a command reads, writes and prints, and ends with a result. It can be run on the files of a machine,
or on a `Disk` that is only a table of files (`Script.runOn`).
-/

namespace Goblet

inductive Script (α : Type) where
  | done (a : α)
  /-- Reads a file. An error is the reason in words. -/
  | read (path : String) (next : Except String (List UInt8) → Script α)
  | write (path : String) (bytes : List UInt8) (next : Except String Unit → Script α)
  | print (text : String) (next : Script α)
  /-- Prints to the stream for errors. -/
  | complain (text : String) (next : Script α)
  | crash (c : Crash)

namespace Script

def bind (s : Script α) (f : α → Script β) : Script β :=
  match s with
  | .done a => f a
  | .read path next => .read path fun r => (next r).bind f
  | .write path bytes next => .write path bytes fun r => (next r).bind f
  | .print text next => .print text (next.bind f)
  | .complain text next => .complain text (next.bind f)
  | .crash c => .crash c

instance : Monad Script where
  pure := .done
  bind := bind

def readFile (path : String) : Script (Except String (List UInt8)) := .read path .done

def writeFile (path : String) (bytes : List UInt8) : Script (Except String Unit) := .write path bytes .done

def say (text : String) : Script Unit := .print text (.done ())

def warn (text : String) : Script Unit := .complain text (.done ())

def shown (r : Except Crash α) : Script α :=
  match r with
  | .ok a => return a
  | .error c => .crash c

end Script

/-! ## Paths -/

def Path.parts (path : String) : List String := (path.splitOn "/").filter fun p => !p.isEmpty && p != "."

/-- What follows the last dot of a file's name, if something precedes it. -/
def Path.extension? (path : String) : Option String :=
  match (Path.parts path).getLast? with
  | some ".." | none => none
  | some name =>
    let back := name.toList.reverse
    match back.dropWhile (· != '.') with
    | _ :: _ :: _ => some (String.ofList (back.takeWhile (· != '.')).reverse)
    | _ => none

/-! ## Tables of files -/

/-- Files by the parts of their paths. A path is a directory if it leads on to a file. -/
structure Disk where
  files : List (List String × List UInt8)

namespace Disk

def missing : String := "No such file or directory (os error 2)"

def notDirectory : String := "Not a directory (os error 20)"

def isDirectory : String := "Is a directory (os error 21)"

def find? (d : Disk) (path : List String) : Option (List UInt8) := d.files.lookup path

/-- Whether a path is a directory. The empty path is. -/
def isDir (d : Disk) (path : List String) : Bool :=
  path.isEmpty || d.files.any fun f => path.isPrefixOf f.1 && path.length < f.1.length

def whyNot (d : Disk) (path : List String) : String :=
  if d.isDir path then isDirectory
  else if d.files.any fun f => f.1.isPrefixOf path && f.1.length < path.length then notDirectory
  else missing

def read (d : Disk) (path : String) : Except String (List UInt8) :=
  let parts := Path.parts path
  match d.find? parts with
  | some bytes => if path.endsWith "/" then .error notDirectory else .ok bytes
  | none => .error (d.whyNot parts)

def write (d : Disk) (path : String) (bytes : List UInt8) : Except String Disk :=
  let parts := Path.parts path
  if (d.find? parts).isSome then
    if path.endsWith "/" then .error notDirectory
    else .ok ⟨d.files.map fun f => if f.1 = parts then (parts, bytes) else f⟩
  else if d.isDir parts || !d.isDir parts.dropLast then .error (d.whyNot parts)
  else if path.endsWith "/" then .error isDirectory
  else .ok ⟨d.files ++ [(parts, bytes)]⟩

end Disk

/-- What was printed to the two streams. -/
structure Printed where
  out : String
  err : String

def Script.runOn (d : Disk) (p : Printed) : Script α → Except Crash α × Disk × Printed
  | .done a => (.ok a, d, p)
  | .crash c => (.error c, d, p)
  | .read path next => (next (d.read path)).runOn d p
  | .write path bytes next =>
    match d.write path bytes with
    | .ok d => (next (.ok ())).runOn d p
    | .error e => (next (.error e)).runOn d p
  | .print text next => next.runOn d { p with out := p.out ++ text }
  | .complain text next => next.runOn d { p with err := p.err ++ text }

end Goblet
