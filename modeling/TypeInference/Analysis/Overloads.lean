import TypeInference.Analysis.Context
import TypeInference.Solver.Run
import TypeInference.Tree.Traverse

/-! # Overloads

Applies a solution to a module: every identifier with several candidates is bound to the first one whose type fits under
the solution, and every type in the tree and in the symbol table is resolved.
-/

namespace TypeInference

open AnalysisM

abbrev OverloadM := StateT Solver.Clock AnalysisM

/-- Whether the type of a candidate can be that of an identifier under a solution. -/
def Ident.fits (i : Ident) (solution : Substitution) (id : SymbolId) : OverloadM Bool := do
  let c ← (get : AnalysisM Context)
  let symbol ← (c.table.symbol id : Except Fault _)
  let location : Location := { node := some i.mark.token, path := [.identifier] }
  let report ← (Solver.solve c.graph [.equality i.mark.type symbol.type location] solution (← get) : Except Fault _)
  set report.clock
  return report.outcome.isOk

def resolve (solution : Substitution) (type : Ty) : AnalysisM Ty := do
  let c ← get
  let (g, type) ← (solution.reify c.graph type : Except Fault _)
  set { c with graph := g }
  return type

def Ident.dispatch (solution : Substitution) (i : Ident) : OverloadM Ident := do
  if i.candidates.length ≤ 1 then return i
  match ← i.candidates.findM? (i.fits solution) with
  | some id => return { i with symbol := id }
  | none =>
    let type ← resolve solution i.mark.type
    let shown := (← (get : AnalysisM Context)).graph.textInMessage type
    diagnose .unresolvedOverload i.mark.token s!"no overload of {i.name} has type {shown}"
    return i

def resolveSymbols (solution : Substitution) : AnalysisM Unit := do
  let symbols ← (← get).table.symbols.mapM fun s => do return { s with type := ← resolve solution s.type }
  modify fun c => { c with table := { c.table with symbols := symbols } }

def Mark.resolve (solution : Substitution) (mark : Mark) : AnalysisM Mark := do
  if mark.type = .absent then return mark
  return { mark with type := ← TypeInference.resolve solution mark.type }

/-- Applies a solution to a module. The clock goes on from where it was. -/
def Module.dispatch (solution : Substitution) (clock : Solver.Clock) (x : Module) :
    AnalysisM (Module × Solver.Clock) := do
  let (x, clock) ← (x.change { ident := Ident.dispatch solution, mark := pure }).run clock
  resolveSymbols solution
  let x ← x.change {
    ident := fun i => do return { i with mark := ← i.mark.resolve solution }
    mark := Mark.resolve solution }
  return (x, clock)

end TypeInference
