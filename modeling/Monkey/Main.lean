import Monkey.ReadLoop

/-! The command line: runs the script it is given, or reads lines from standard input. -/
namespace Monkey.CommandLine

def write (t : Transcript) : IO Unit := do
  let out ← IO.getStdout
  out.putStr t.out
  out.flush
  (← IO.getStderr).putStr t.err

partial def readLines (input : IO.FS.Stream) (st : Store) (env : Env) : IO Unit := do
  write ⟨ReadLoop.prompt, ""⟩
  let text ← input.getLine
  if text.isEmpty then return
  let (t, st) := ReadLoop.line st env text
  write t
  readLines input st env

end Monkey.CommandLine

def main : List String → IO Unit
  | [] => do
    let (env, st) := Monkey.Store.start
    Monkey.CommandLine.readLines (← IO.getStdin) st env
  | path :: _ => do
    let source ← IO.FS.readFile path
    Monkey.CommandLine.write (Monkey.ReadLoop.script source)
