import TypeInference.Analysis.Prelude
import TypeInference.Constraint.Basic
import TypeInference.Types.Union
import TypeInference.Diagnostic.Collection

/-! # The state of an analysis

What one analysis of a module builds up: types, scopes and symbols, the number of variables in use, constraints and
problems.
-/

namespace TypeInference

structure Context where
  graph : TypeGraph := {}
  table : SymbolTable := {}
  /-- The number of inference variables in use; they are numbered from zero. -/
  vars : Nat := 0
  prelude : ScopeId := noScope
  constraints : List Constraint := []
  diagnostics : Diagnostics := {}
  /-- Whether the analysis reports what it does. -/
  logs : Bool := false
deriving Inhabited

abbrev AnalysisM := StateT Context (Except Fault)

namespace Context

/-- The state before a module is looked at: only the prelude is declared. -/
def initial (g : TypeGraph) : Except Fault Context := do
  let (g, t, scope) ← Prelude.declare g {}
  return { graph := g, table := t, prelude := scope }

end Context

namespace AnalysisM

def fresh : AnalysisM Ty := do
  let c ← get
  set { c with vars := c.vars + 1 }
  return .var c.vars

def newType (t : Composite) : AnalysisM Ty := do
  let c ← get
  let (g, i) := c.graph.add t
  set { c with graph := g }
  return .node i

def newFunction (fields : List TupleField) (codomain : Ty) : AnalysisM Ty := do
  let c ← get
  let (g, d) := c.graph.add (.tuple "" fields)
  let (g, i) := g.add (.function (some d) codomain)
  set { c with graph := g }
  return .node i

def newUnion (ts : List Ty) : AnalysisM Ty := do
  let c ← get
  let (g, t) ← (c.graph.union ts : Except Fault _)
  set { c with graph := g }
  return t

def require (c : Constraint) : AnalysisM Unit :=
  modify fun s => { s with constraints := s.constraints ++ [c] }

def diagnose (code : Code) (token : Token) (message : String) : AnalysisM Unit :=
  modify fun s => { s with diagnostics := s.diagnostics.add (.of code token message) }

def newScope (name : String) (kind : ScopeKind) (parent : ScopeId) (module : String) : AnalysisM ScopeId := do
  let c ← get
  let (t, id) := c.table.addScope name kind parent module
  set { c with table := t }
  return id

def canDeclare (scope : ScopeId) (name : String) (overloadable : Bool) : AnalysisM Bool := do
  (← get).table.canDeclare scope name overloadable

def declare (scope : ScopeId) (name : String) (type : Ty) (overloadable : Bool) : AnalysisM SymbolId := do
  let c ← get
  let (t, id) ← (c.table.declare scope name type overloadable : Except Fault _)
  set { c with table := t }
  return id

end AnalysisM

end TypeInference
