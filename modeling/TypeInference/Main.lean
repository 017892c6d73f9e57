import TypeInference.Command

/-! # Command line

Runs a command on the files of the machine.
-/

namespace TypeInference

def readHostFile (path : String) : IO (Except FileProblem String) := do
  try
    return .ok (← IO.FS.readFile path)
  catch
    | .noFileOrDirectory .. => return .error .absent
    | .inappropriateType _ 20 _ => return .error .notDirectory
    | _ => return .error .isDirectory

def hostPathPresent (path : String) : IO Bool := do
  match ← readHostFile path with
  | .error .absent | .error .notDirectory => return false
  | _ => return true

/-- The machine as a host of commands. -/
def machine : IO (Host IO) := do
  return { read := readHostFile
           present := hostPathPresent
           directory := (← IO.currentDir).toString
           terminal := ← (← IO.getStdout).isTty }

def treeListing (m : Module) : Except Fault String := do
  return String.join ((← m.nodes).map fun (depth, n) => s!"{indentation depth}{n.kind} {n.literal}\n")

def Command.Chunk.render : Command.Chunk → String
  | .text s => s
  | .dump (some m) => (treeListing m).toOption.getD ""
  | .dump none => "<nil>\n"

end TypeInference

open TypeInference in
def main (args : List String) : IO UInt32 := do
  let outcome ← Command.run (← machine) args
  for line in outcome.log do
    IO.eprintln line
  for chunk in outcome.output do
    IO.print chunk.render
  IO.eprint outcome.ending.notice
  return UInt32.ofNat outcome.ending.exitCode
