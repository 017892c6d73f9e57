import TypeInference.Analysis.Obligations
import TypeInference.Analysis.Overloads
import TypeInference.Analysis.Scoping
import TypeInference.Settings
import TypeInference.Tree.Decode
import TypeInference.Tree.Desugar
import TypeInference.Tree.Printer

/-! # Sessions

The analysis of one file, stage by stage: the text becomes a module, operators become calls, names find their scopes,
types and constraints are recorded, constraints are solved, and overloads are chosen. A stage that has nothing to work
on, or that stands after a problem, leaves the session as it is.
-/

namespace TypeInference

structure Session where
  file : String
  text : String := ""
  settings : Settings := {}
  logging : Bool := true
  clock : Solver.Clock := none
  /-- All composite types made so far. -/
  graph : TypeGraph := {}
  module : Option Module := none
  analysis : Option Context := none
  solution : Option Substitution := none
  diagnostics : List Diagnostic := []
  log : List String := []
deriving Inhabited

namespace Session

def hasProblems (s : Session) : Bool := !s.diagnostics.isEmpty

def diagnose (s : Session) (d : Diagnostic) : Session :=
  { s with diagnostics := s.diagnostics ++ [d.inFile s.file] }

/-- Takes over what an analysis has found: its types, and the problems of the stage. -/
def adopt (s : Session) (c : Context) : Session :=
  let s := c.diagnostics.toList.foldl diagnose s
  { s with graph := c.graph, analysis := some { c with diagnostics := {} } }

def record (s : Session) (c : Context) (lines : List String) : Session :=
  if c.logs then { s with log := s.log ++ lines } else s

/-! ### Stages -/

def decode (s : Session) : Session :=
  match s.module with
  | some _ => s
  | none =>
    match Decode.ofText s.file s.text with
    | .ok m => { s with module := some m }
    | .error d => s.diagnose d

def normalize (replacements : Replacements) (s : Session) : Except Fault Session := do
  match s.module with
  | none => return s
  | some m => return { s with module := some (← m.desugar replacements) }

def newContext (s : Session) : Except Fault Context := Context.initial s.graph

def restart (s : Session) : Except Fault Session := do
  let c ← s.newContext
  return { s with graph := c.graph, analysis := some c }

def bind (s : Session) : Except Fault Session := do
  match s.module with
  | none => return s
  | some m =>
    let c ← s.newContext
    let ((m, _), c) ← m.bind.run { c with logs := s.logging }
    let s := { s.adopt c with module := some m }
    let counts := s!"scopes={c.table.scopes.size} symbols={c.table.symbols.size}"
    return s.record c [s!"bound module module={m.name} id={m.id} {counts}"]

/-- Whether a stage after the declaration of names can work, and on what. -/
def ready? (s : Session) : Option Context := if s.hasProblems then none else s.analysis

def generate (s : Session) : Except Fault Session := do
  match s.ready?, s.module with
  | none, _ => return s
  | some _, none => throw .missing
  | some c, some m =>
    let (m, c) ← m.oblige.run { c with graph := s.graph }
    let s := { s.adopt c with module := some m }
    return s.record c [s!"generated constraints module={m.name} count={c.constraints.length}"]

def failureCode : Solver.FailureKind → Code
  | .typeMismatch => .typeMismatch
  | .ambiguous => .ambiguousExpression
  | .timeout => .timeout
  | .stalled => .stalled
  | .other _ => .other ""

def failureDiagnostic (f : Solver.Failure) : Diagnostic :=
  let location := f.constraint.location
  let text := f.constraint.text f.graph
  let path := location.pathText
  .of (failureCode f.kind) (location.node.getD {}) (if path = "" then text else s!"{text} (at {path})")

/-- Solves the constraints. A time limit of its own takes the place of the clock of the session. -/
def solve (s : Session) : Except Fault Session := do
  match s.ready? with
  | none => return s
  | some c =>
    let clock := if s.settings.timeout > 0 then none else s.clock
    let report ← Solver.solve s.graph c.constraints .empty clock
    let s := if s.settings.timeout > 0 then s else { s with clock := report.clock }
    let s := if s.settings.trace then s.record c (report.events.map (Solver.Event.text s.graph)) else s
    if report.outcome.isOk then return { s with solution := report.outcome.solution? }
    return (report.outcome.failures.map failureDiagnostic).foldl diagnose s

def dispatch (s : Session) : Except Fault Session := do
  match s.ready?, s.solution, s.module with
  | some c, some solution, some m =>
    let ((m, clock), c) ← (m.dispatch solution s.clock).run { c with graph := s.graph }
    return { s.adopt c with module := some m, clock := clock }
  | some _, some _, none => throw .missing
  | _, _, _ => return s

def run (s : Session) : Except Fault Session := do
  let s ← s.decode.normalize []
  let s ← s.bind
  let s ← s.generate
  let s ← s.solve
  s.dispatch

/-! ### Listings -/

/-- The line of a declaration in a listing of types; other statements than declarations and expressions have none. -/
def typeLine (g : TypeGraph) (table : SymbolTable) : Node → Except Fault String
  | .alias a => do
    if a.symbol = noSymbol then return ""
    let type := (← table.symbol a.symbol).type
    return s!"type {a.name} = {g.textInMessage ((g.metatype? type).getD type)}\n"
  | .expr e =>
    match e with
    | .missing => .ok ""
    | .func f => do
      if f.name ≠ "" then return s!"func {f.name}: {g.textInMessage f.mark.type}\n"
      return s!"{← e.source} : {g.textInMessage f.mark.type}\n"
    | e => do return s!"{← e.source} : {g.textInMessage (← e.type)}\n"
  | _ => .ok ""

def typeListing (s : Session) : Except Fault String := do
  match s.analysis, s.module with
  | some c, some m => return String.join (← m.statements.mapM (typeLine s.graph c.table))
  | _, _ => return ""

def problemListing (s : Session) (color : Bool) : String :=
  String.join (s.diagnostics.map fun d => (if color then d.coloredText else d.text) ++ "\n")

end Session

end TypeInference
