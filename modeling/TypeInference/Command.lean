import TypeInference.Command.Arguments
import TypeInference.Session

/-! # Commands

The commands `check`, `types` and `print` on files. They see the files through a `Host`, so that they can be run on any
store of files; what they write is part of their result.
-/

namespace TypeInference

inductive FileProblem where
  | absent
  | isDirectory
  /-- A file stands where the path needs a directory. -/
  | notDirectory
deriving DecidableEq, Repr

def FileProblem.message (path : String) : FileProblem → String
  | .absent => s!"open {path}: no such file or directory"
  | .isDirectory => s!"read {path}: is a directory"
  | .notDirectory => s!"open {path}: not a directory"

structure Host (m : Type → Type) where
  read : String → m (Except FileProblem String)
  /-- Whether a path leads to a file or directory. -/
  present : String → m Bool
  /-- The directory that paths start from. -/
  directory : String
  terminal : Bool := false

namespace Command

inductive Chunk where
  | text (s : String)
  /-- The tree of a module, if there is one. -/
  | dump (m : Option Module)

inductive Ending where
  | done
  | problems
  | usage (text : String)
  | error (text : String)
  | fault (f : Fault)

def Ending.exitCode : Ending → Nat
  | .done => 0
  | .problems => 1
  | .usage _ => 2
  | .error _ => 1
  | .fault _ => 2

/-- What a command says about its end, on a line of its own. -/
def Ending.notice : Ending → String
  | .done | .problems => ""
  | .usage text => text ++ "\n"
  | .error text => text ++ "\n"
  | .fault f => f.message?.getD "" ++ "\n"

/-- The result of a command: its output, the reports of its analyses, and its end. -/
structure Outcome where
  output : List Chunk := []
  log : List String := []
  ending : Ending

/-! ### Settings -/

/-- The files that settings are looked for in, in this order. -/
def settingsFiles : List String := ["alpine.yaml", "alpine.yml"]

variable {m : Type → Type} [Monad m]

def absolute (host : Host m) (path : String) : String :=
  if path.startsWith "/" then SourceFile.clean path else SourceFile.join host.directory path

/-- The file with settings in the directory or the nearest one around it; the first argument bounds how many there
are. -/
def findSettings (host : Host m) : Nat → String → m (Option String)
  | 0, _ => return none
  | fuel + 1, directory => do
    match ← settingsFiles.findM? fun name => host.present (SourceFile.join directory name) with
    | some name => return some (SourceFile.join directory name)
    | none =>
      let parent := SourceFile.directory directory
      if parent = directory then return none else findSettings host fuel parent

def loadSettings (host : Host m) (path : String) : m (Except String Settings) := do
  match ← host.read path with
  | .error p => return .error s!"reading config {path}: {p.message path}"
  | .ok text =>
    match Settings.ofText text with
    | .ok s => return .ok s
    | .error p => return .error (p.message path)

def applyFlags (f : Flags) (s : Settings) : Except String Settings := do
  let color ← match f.color with
    | none => pure s.color
    | some text =>
      match ColorMode.ofText? text with
      | some c => pure c
      | none => throw s!"--color {Text.quote text} is not one of auto, always, never"
  return { s with timeout := f.timeout.getD s.timeout, parallel := f.parallel.getD s.parallel
                  trace := f.trace.getD s.trace, color := color }

/-- The settings for a file: those that the flags name, or the nearest ones around the file, under the flags. -/
def settingsFor (host : Host m) (f : Flags) (file : String) : m (Except String Settings) := do
  let path ← if f.config ≠ "" then pure (some f.config)
    else
      let start := absolute host (SourceFile.moduleDirectory file)
      findSettings host (start.length + 2) start
  let loaded ← match path with
    | some path => loadSettings host path
    | none => pure (.ok {})
  return loaded.bind (applyFlags f)

def useColor (host : Host m) (s : Settings) : Bool :=
  match s.color with
  | .always => true
  | .never => false
  | .auto => host.terminal

/-! ### Commands -/

def analyze (host : Host m) (s : Settings) (path : String) : m (Except Ending Session) := do
  match ← host.read path with
  | .error p => return .error (.error s!"reading module {path}: {p.message path}")
  | .ok text =>
    match Session.run { file := path, text := text, settings := s, logging := s.trace } with
    | .ok session => return .ok session
    | .error f => return .error (.fault f)

/-- Checks files one after the other, after the output and log of those before. -/
def checkFiles (host : Host m) (f : Flags) (s : Settings) : List Chunk → List String → Bool → List String → m Outcome
  | output, log, failed, [] => return { output := output, log := log, ending := if failed then .problems else .done }
  | output, log, failed, path :: rest => do
    match ← analyze host s path with
    | .error ending => return { output := output, log := log, ending := ending }
    | .ok session =>
      let shown := .text (session.problemListing (useColor host s))
      let output := output ++ shown :: if f.dump then [.dump session.module] else []
      checkFiles host f s output (log ++ session.log) (failed || session.hasProblems) rest

def check (host : Host m) (f : Flags) (files : List String) : m Outcome := do
  match files with
  | [] => return { ending := .usage "usage: alpine check FILE..." }
  | first :: _ =>
    match ← settingsFor host f first with
    | .error text => return { ending := .error text }
    | .ok s => checkFiles host f s [] [] false files

def types (host : Host m) (f : Flags) (files : List String) : m Outcome := do
  match files with
  | [path] =>
    match ← settingsFor host f path with
    | .error text => return { ending := .error text }
    | .ok s =>
      match ← analyze host s path with
      | .error ending => return { ending := ending }
      | .ok session =>
        if session.hasProblems then
          return { output := [.text (session.problemListing (useColor host s))], log := session.log,
                   ending := .problems }
        match session.typeListing with
        | .error fault => return { ending := .fault fault }
        | .ok listing =>
          return { output := .text listing :: if f.dump then [.dump session.module] else []
                   log := session.log, ending := .done }
  | _ => return { ending := .usage "usage: alpine types FILE" }

/-- The text of a module, with operators as calls if that is asked for. -/
def sourceOf (f : Flags) (m : Module) : Except Fault String := do
  let m ← if f.normalize then m.desugar [] else pure m
  m.source

def print (host : Host m) (f : Flags) (files : List String) : m Outcome := do
  match files with
  | [path] =>
    match ← host.read path with
    | .error p => return { ending := .error s!"reading module {path}: {p.message path}" }
    | .ok text =>
      match Decode.ofText path text with
      | .error d => return { ending := .error d.text }
      | .ok x =>
        match sourceOf f x with
        | .ok source => return { output := [.text source], ending := .done }
        | .error fault => return { ending := .fault fault }
  | _ => return { ending := .usage "usage: alpine print FILE" }

def run (host : Host m) (args : List String) : m Outcome := do
  match args with
  | name :: rest =>
    let a := Arguments.read rest
    match name with
    | "check" => check host a.flags a.files
    | "types" => types host a.flags a.files
    | "print" => print host a.flags a.files
    | _ => return { ending := .usage "usage: alpine check|types|print FILE..." }
  | [] => return { ending := .usage "usage: alpine check|types|print FILE..." }

end Command

end TypeInference
