import TypeInference.Number.Duration
import TypeInference.Number.Literal
import TypeInference.Text.Blank

/-! # Arguments of commands

Flags may stand before, between and after the files. Reading stops at an empty argument, which ends all arguments, and
at `--` or an argument that starts like a number with a sign, after which every argument is a file. -/

namespace TypeInference.Command

structure Flags where
  config : String := ""
  timeout : Option Int := none
  parallel : Option Bool := none
  trace : Option Bool := none
  color : Option String := none
  dump : Bool := false
  normalize : Bool := false

structure Arguments where
  flags : Flags := {}
  files : List String := []

inductive Argument where
  | stop
  /-- All arguments after this one are files. -/
  | filesFollow
  /-- This argument and all after it are files. -/
  | filesHere
  | file (path : String)
  /-- The last argument that is read. -/
  | lastFile (path : String)
  | flag (name value : String)
deriving DecidableEq, Repr

/-- Splits `name=value`; without a value it is empty. -/
def Argument.ofFlag (cs : List Char) : Argument :=
  let name := cs.takeWhile (· != '=')
  .flag (String.ofList name) (String.ofList (cs.drop (name.length + 1)))

/-- What an argument is; blanks at its ends do not count. The names of flags start with an ASCII letter. -/
def Argument.ofText (s : String) : Argument :=
  let shown := Text.trim s
  match shown.toList with
  | [] => .stop
  | ['-'] => .lastFile shown
  | ['-', '-'] => .filesFollow
  | '-' :: '-' :: rest => .ofFlag rest
  | '-' :: c :: rest => if c.isAlpha then .ofFlag (c :: rest) else .filesHere
  | _ => .file shown

def valueFlags : List String := ["config", "timeout", "color"]

def Flags.setValue (f : Flags) (name value : String) : Flags :=
  match name with
  | "config" => { f with config := value }
  | "timeout" => { f with timeout := some ((Duration.read value).getD 0) }
  | "color" => { f with color := some value }
  | _ => f

def Flags.setSwitch (f : Flags) (name : String) (on : Bool) : Flags :=
  match name with
  | "parallel" => { f with parallel := some on }
  | "trace" => { f with trace := some on }
  | "dump" => { f with dump := on }
  | "normalize" => { f with normalize := on }
  | _ => f

namespace Arguments

def addFiles (a : Arguments) (paths : List String) : Arguments := { a with files := a.files ++ paths }

/-- Reads arguments after those that were read; the first argument is a flag that waits for its value. A flag that takes
a value and has none takes the next argument as it is. -/
def readFrom : Option String → Arguments → List String → Arguments
  | _, a, [] => a
  | some name, a, value :: rest => readFrom none { a with flags := a.flags.setValue name value } rest
  | none, a, arg :: rest =>
    match Argument.ofText arg with
    | .stop => a
    | .filesFollow => a.addFiles rest
    | .filesHere => a.addFiles (arg :: rest)
    | .lastFile path => a.addFiles [path]
    | .file path => readFrom none (a.addFiles [path]) rest
    | .flag name value =>
      if !valueFlags.contains name then
        readFrom none { a with flags := a.flags.setSwitch name ((Literal.bool? value).getD true) } rest
      else if value = "" then readFrom (some name) a rest
      else readFrom none { a with flags := a.flags.setValue name value } rest

def read (args : List String) : Arguments := readFrom none {} args

end Arguments

end TypeInference.Command
