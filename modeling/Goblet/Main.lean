import Goblet.CommandLine

/-!
# The program

Runs the script of the command line on the files and streams of the machine.
-/

namespace Goblet.Terminal

def endless : Nat := Nat.pow 2 62

def reason : IO.Error → String
  | .noFileOrDirectory .. => Disk.missing
  | .inappropriateType .. => Disk.isDirectory
  | e => toString e

def readBytes (path : String) : IO (Except String (List UInt8)) := do
  try
    return .ok (← IO.FS.readBinFile path).toList
  catch e => return .error (reason e)

def writeBytes (path : String) (bytes : List UInt8) : IO (Except String Unit) := do
  try
    IO.FS.writeBinFile path ⟨bytes.toArray⟩
    return .ok ()
  catch e => return .error (reason e)

def runScript : Script α → IO (Except Crash α)
  | .done a => return .ok a
  | .crash c => return .error c
  | .read path next => do runScript (next (← readBytes path))
  | .write path bytes next => do runScript (next (← writeBytes path bytes))
  | .print text next => do
    IO.print text
    runScript next
  | .complain text next => do
    IO.eprint text
    runScript next

partial def interact (r : Repl) : IO UInt32 := do
  IO.print r.prompt
  (← IO.getStdout).flush
  let text ← (← IO.getStdin).getLine
  match Repl.lines text with
  | [] =>
    IO.print "\n"
    return 0
  | line :: _ =>
    let (r, p) := r.feed endless line
    IO.print p.out
    IO.eprint p.err
    match r with
    | .ok r => interact r
    | .error c => return c.exitCode.toUInt32

end Goblet.Terminal

def main (args : List String) : IO UInt32 := do
  match ← Goblet.Terminal.runScript (Goblet.CommandLine.script args Goblet.Terminal.endless) with
  | .error c => return c.exitCode.toUInt32
  | .ok (.exit code) => return code.toUInt32
  | .ok (.repl s) =>
    IO.print Goblet.Repl.greeting
    Goblet.Terminal.interact ⟨s, ""⟩
