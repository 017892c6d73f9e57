import TypeInference.Substitution.Basic
import TypeInference.Types.Equality

/-! # Reified types

A type is reified by replacing every variable in it by what the variable resolves to; a variable that is not bound
becomes the error type. The result is built of new nodes. A node is entered in the memory before its parts are reified,
so that a cycle of bindings becomes a cycle of the graph.

Unions are kept flat: a case that is a finished union contributes its cases, a case that equals an earlier one is
dropped, and a union left with one case is that case, unless something refers to the union already.
-/

namespace TypeInference.Substitution

structure ReifyState where
  graph : TypeGraph
  /-- The result for every composite type met so far, latest first. -/
  results : List (NodeId × Ty) := []
  /-- The unions whose cases are not complete yet. -/
  unfinished : List NodeId := []
  /-- The results that were used a second time. -/
  referenced : List Ty := []

abbrev ReifyM := StateT ReifyState (Except Fault)

namespace ReifyM

/-- A new node that is the result for `source`. -/
def start (source : NodeId) (c : Composite) : ReifyM NodeId := do
  let s ← get
  let (graph, i) := s.graph.add c
  set { s with graph := graph, results := (source, .node i) :: s.results }
  return i

def fill (i : NodeId) (c : Composite) : ReifyM Unit :=
  modify fun s => { s with graph := s.graph.set i c }

/-- Adds a case to a union, unless the case is the union itself or equals a case of it. -/
def addCase (u : NodeId) (t : Ty) : ReifyM Unit := do
  let s ← get
  let cases := (s.graph.unionCases? (.node u)).getD []
  if t = .node u then return
  if ← s.graph.anyEqual cases t then return
  fill u (.union (cases ++ [t]))

/-- Adds a reified case to a union: the cases of a finished union, or the case itself. -/
def joinCase (u : NodeId) (t : Ty) : ReifyM Unit := do
  if t = .node u then return
  let s ← get
  match t, s.graph.unionCases? t with
  | .node i, some cases => if s.unfinished.contains i then addCase u t else cases.forM (addCase u)
  | _, _ => addCase u t

/-- Completes the union `u`, the result for `source`. -/
def finishUnion (source u : NodeId) : ReifyM Ty := do
  let s ← get
  let s := { s with unfinished := s.unfinished.erase u }
  match s.graph.unionCases? (.node u) with
  | some [t] =>
    if s.referenced.contains (.node u) then
      set s
      return .node u
    set { s with results := (source, t) :: s.results }
    return t
  | _ =>
    set s
    return .node u

end ReifyM

open ReifyM

/-- Reifies the fields of the tuple `i` from position `done.length` on; fields not reached yet are blank. -/
def reifyFields (reify : Ty → ReifyM Ty) (i : NodeId) (label : String) :
    List TupleField → List TupleField → ReifyM Unit
  | _, [] => pure ()
  | done, f :: rest => do
    let t ← reify f.type
    let done := done ++ [{ f with type := t }]
    fill i (.tuple label (done ++ rest.map fun _ => { type := .absent }))
    reifyFields reify i label done rest

/-- Reifies a type. Every step into a composite type is a step into one that has no result yet, so the first argument
need not exceed the number of nodes of the graph plus one. -/
def reifyAux (s : Substitution) : Nat → Ty → ReifyM Ty
  | 0, _ => throw .outOfSteps
  | fuel + 1, t =>
    match s.lookup t with
    | .absent | .var _ => return .error
    | .scalar b => return .scalar b
    | .error => return .error
    | .node source => do
      let state ← get
      match state.results.lookup source with
      | some out =>
        set { state with referenced := out :: state.referenced }
        return out
      | none =>
        match ← (state.graph.get source : Except Fault Composite) with
        | .metatype of =>
          let i ← start source (.metatype .absent)
          fill i (.metatype (← reifyAux s fuel of))
          return .node i
        | .function none _ =>
          throw .missing
        | .function (some domain) codomain =>
          let i ← start source (.function none .absent)
          match ← reifyAux s fuel (.node domain) with
          | .node d =>
            fill i (.function (some d) .absent)
            fill i (.function (some d) (← reifyAux s fuel codomain))
            return .node i
          | _ => throw .missing
        | .tuple label fields =>
          let i ← start source (.tuple label (fields.map fun _ => { type := .absent }))
          reifyFields (reifyAux s fuel) i label [] fields
          return .node i
        | .union cases =>
          let u ← start source (.union [])
          modify fun s => { s with unfinished := u :: s.unfinished }
          cases.forM fun c => do joinCase u (← reifyAux s fuel c)
          finishUnion source u

/-- The type with every variable resolved, in a graph that extends the given one. -/
def reify (s : Substitution) (g : TypeGraph) (t : Ty) : Except Fault (TypeGraph × Ty) := do
  let (t, state) ← (s.reifyAux (g.size + 1) t).run { graph := g }
  return (state.graph, t)

/-- The table in which every binding is reified. Bindings that share structure go on sharing it. -/
def reified (s : Substitution) (g : TypeGraph) : Except Fault (TypeGraph × Substitution) := do
  let walk : ReifyM (List (Int × Ty)) := s.entries.mapM fun (v, t) => do
    return (v, ← s.reifyAux (g.size + 1) t)
  let (entries, state) ← walk.run { graph := g }
  return (state.graph, ⟨entries⟩)

def agreeOn (g : TypeGraph) (s o : Substitution) (v : Int) : Except Fault Bool := do
  let (g, t) ← s.reify g (.var v)
  let (g, u) ← o.reify g (.var v)
  g.equal t u

def varsOfEither (s o : Substitution) : List Int := s.vars ++ o.vars.filter fun v => !s.vars.contains v

def equivalent (g : TypeGraph) (s o : Substitution) : Except Fault Bool := (s.varsOfEither o).allM (agreeOn g s o)

end TypeInference.Substitution
