import TypeInference.Solver.Cases

/-! # Rules of the solver

One step takes the top constraint apart: it binds a variable, derives smaller constraints, puts the constraint back
until more is known, or finds that it cannot hold.
-/

namespace TypeInference.Solver

inductive StepResult where
  | next (state : State) (events : List Event)
  | mismatch
deriving Inhabited

namespace StepResult

def quiet (s : State) : StepResult := .next s []

end StepResult

namespace State

def requeue (s : State) (c : Constraint) : StepResult :=
  .next { s with work := s.work ++ [c], idle := s.idle + 1 } [.requeue s.depth c]

def bindVar (s : State) (v : Int) (t : Ty) : StepResult :=
  .next { s with subst := s.subst.bind v t, idle := 0 } [.bind s.depth v t]

def pushLeft (s : State) (relation : Relation) (lefts : List Ty) (right : Ty) (location : Location) : State :=
  s.pushAll (lefts.map fun t => .relate relation t right location)

end State

/-- Relates a union on the left: every leaf case of it has to be related to the right side, and if an equality has a
union on the right too, every leaf case of that conforms to the left one. -/
def matchLeftUnion (g : TypeGraph) (s : State) (relation : Relation) (i : NodeId) (cases : List Ty) (right : Ty)
    (location : Location) : Except Fault StepResult := do
  let within := location.append [.unionCase]
  let lefts ← leafCases g s.subst i cases
  match right, g.unionCases? right with
  | .node j, some cases' =>
    let s := s.pushLeft .conformance lefts right within
    match relation with
    | .conformance => return .quiet s
    | .equality =>
      let rights ← leafCases g s.subst j cases'
      return .quiet (s.pushLeft .conformance rights (.node i) within)
  | _, _ => return .quiet (s.pushLeft relation lefts right within)

/-- Relates a type that is no union to a union: it equals a leaf case, or one of the leaf cases has to be chosen, after
all other work. -/
def matchRightUnion (g : TypeGraph) (s : State) (left : Ty) (j : NodeId) (cases : List Ty) (location : Location) :
    Except Fault StepResult := do
  let rights ← leafCases g s.subst j cases
  if ← rights.anyM (g.equal left) then return .quiet s.progress
  let within := location.append [.unionCase]
  let choices := rights.map fun u => Constraint.conformance left u within
  return .quiet (s.progress.enqueue (.oneOf choices location))

def domainType : Option NodeId → Ty
  | some d => .node d
  | none => .absent

def matchParts (s : State) (relation : Relation) (location : Location) : Composite → Composite → StepResult
  | .function d c, .function d' c' =>
    .quiet ((s.push (.relate relation (domainType d) (domainType d') (location.append [.domain]))).push
      (.relate relation c c' (location.append [.codomain])))
  | .tuple l fs, .tuple l' fs' =>
    if sameShape l fs l' fs' then
      let parts := (fs.zip fs').zipIdx.map fun ((f, f'), i) =>
        Constraint.relate relation f.type f'.type (location.append [.element i])
      .quiet (s.pushAll parts).progress
    else .mismatch
  | .metatype t, .metatype u => .quiet (s.push (.relate relation t u location))
  | _, _ => .mismatch

def matchComposite (g : TypeGraph) (s : State) (relation : Relation) (left right : Ty) (location : Location) :
    Except Fault StepResult := do
  match left, g.unionCases? left, right, g.unionCases? right with
  | .node i, some cases, _, _ => matchLeftUnion g s relation i cases right location
  | _, _, .node j, some cases => matchRightUnion g s left j cases location
  | .node i, _, .node j, _ => return matchParts s relation location (← g.get i) (← g.get j)
  | _, _, _, _ => return .mismatch

/-- Relates two types. Two variables that one of which conforms to the other wait: nothing tells yet which is wider. -/
def matchTypes (g : TypeGraph) (s : State) (relation : Relation) (left right : Ty) (location : Location) :
    Except Fault StepResult := do
  let a := s.subst.lookup left
  let b := s.subst.lookup right
  if ← g.equal a b then return .quiet s.progress
  match a, b, relation with
  | .var _, .var _, .conformance => return s.requeue (.relate relation left right location)
  | .var v, _, _ => return s.bindVar v b
  | _, .var v, _ => return s.bindVar v a
  | _, _, _ => matchComposite g s relation a b location

/-- Equates the type of a member with the one that is asked for. A member of a variable waits. -/
def matchMember (g : TypeGraph) (s : State) (owner : Ty) (member : Member) (type : Ty) (location : Location) :
    StepResult :=
  let owner' := s.subst.lookup owner
  match owner', g.tuple? owner' with
  | .var _, _ => s.requeue (.member owner member type location)
  | _, some (_, fields) =>
    match member.field? fields with
    | some f => .quiet (s.push (.equality type f.type location))
    | none => .mismatch
  | _, none => .mismatch

/-- Takes a conformance between two unknown types out of the work, the topmost, with the variables of its sides. -/
def takeUnknown (subst : Substitution) : List Constraint → Option ((Int × Int) × List Constraint)
  | [] => none
  | c :: rest =>
    let here := match c with
      | .relate .conformance t u _ =>
        match subst.lookupVar? t, subst.lookupVar? u with
        | some v, some w => some (v, w)
        | _, _ => none
      | _ => none
    match here with
    | some vw => some (vw, rest)
    | none => (takeUnknown subst rest).map fun (vw, rest) => (vw, c :: rest)

/-- Settles a state in which every constraint waits: the left side of the topmost conformance between unknown types is
bound to its right side. -/
def unstall (s : State) : Option StepResult :=
  (takeUnknown s.subst s.work).map fun ((v, w), work) => { s with work := work }.bindVar v (.var w)

end TypeInference.Solver
